import Mathlib.Data.Set.Function
import TermNet.Proofs.Bipartite.Maximum
import TermNet.Proofs.Commutative.Pairing
import TermNet.Proofs.Commutative.Union
import TermNet.Proofs.Partition

namespace TermNet.CommutativePattern

/-!
# What matching commutative arguments finds

The matches of a commutative pattern are, matching by matching, those of a pairing of
operands with arguments: what is left over is shared out among the sequence variables,
and the ways to fit the operands are united.

* `outcomes` — the matches of one pairing;
* `matchSorted_eq` — the matches are those of the complete matchings;
* `mem_matchSorted_iff` — what is found, without reference to the search;
* `flatMap_matchings_perm` — where operands correspond to one another, so do pairings;
* `matchSorted_perm` — the numbers of the operands and the order of their ways make no
  difference.
-/

/-- The matches of one pairing. -/
def outcomes (head : Head) (vars : List SequenceVariable) (arguments : List Term)
    (ways : Nat → Term → List Substitution) (σ : Substitution) (pairs : List (Nat × Term)) :
    List Substitution :=
  (partitions (arguments.diff (pairs.map Prod.snd)) vars).flatMap fun partition =>
    (unionPairs ways pairs σ).filterMap fun union => bindVariables? head union vars partition

/-- The ways in which an argument fits an operand. -/
def waysOf (found : Term → List (Nat × Substitution)) (operand : Nat) (t : Term) :
    List Substitution :=
  fits operand (found t)

variable {pattern : CommutativePattern} {arguments : List Term}
variable {found : Term → List (Nat × Substitution)}

/-! ### The matches of a matching -/

/-- What an assignment leaves over. -/
theorem leftover_perm {f : List Nat} (hnodup : f.Nodup) :
    (leftover arguments f).Perm (arguments.diff (chosen arguments f)) := by
  have hsplit := List.filter_append_perm (fun pair : Term × Nat => f.contains pair.2)
    arguments.zipIdx
  -- The arguments at the numbers of `f` are those that are chosen, though in another order.
  have hused : ((arguments.zipIdx.filter fun pair => f.contains pair.2).map Prod.fst).Perm
      (chosen arguments f) := by
    have hchosen : chosen arguments f =
        (f.filterMap fun r => arguments[r]?.map fun t => (t, r)).map Prod.fst := by
      rw [List.map_filterMap]
      refine congrArg (List.filterMap · f) (funext fun r => ?_)
      cases arguments[r]? <;> rfl
    have hpositions : arguments.zipIdx.Nodup := by
      refine List.Nodup.of_map Prod.snd ?_
      rw [List.zipIdx_map_snd]
      exact List.nodup_range'
    have hpairs : (f.filterMap fun r => arguments[r]?.map fun t => (t, r)).Nodup := by
      refine hnodup.filterMap fun r s pair hr hs => ?_
      obtain ⟨t, -, rfl⟩ := Option.map_eq_some_iff.mp hr
      obtain ⟨u, -, heq⟩ := Option.map_eq_some_iff.mp hs
      exact (congrArg Prod.snd heq).symm
    rw [hchosen]
    refine List.Perm.map _ ((List.perm_ext_iff_of_nodup (hpositions.filter _) hpairs).mpr ?_)
    rintro ⟨t, r⟩
    simp only [List.mem_filter, List.mk_mem_zipIdx_iff_getElem?, List.contains_iff_mem,
      List.mem_filterMap, Option.map_eq_some_iff, Prod.mk.injEq]
    constructor
    · rintro ⟨ht, hr⟩
      exact ⟨r, hr, t, ht, rfl, rfl⟩
    · rintro ⟨_, hr, _, ht, rfl, rfl⟩
      exact ⟨ht, hr⟩
  have hrest : leftover arguments f =
      (arguments.zipIdx.filter fun pair => !f.contains pair.2).map Prod.fst := by
    unfold leftover
    rw [← List.filterMap_eq_map, List.filterMap_filter]
    refine congrArg (List.filterMap · _) (funext fun pair => ?_)
    show (if f.contains pair.2 = true then none else some pair.1) =
      if (!f.contains pair.2) = true then some pair.1 else none
    cases f.contains pair.2 <;> rfl
  have hall := hsplit.map Prod.fst
  rw [List.map_append, List.zipIdx_map_fst, ← hrest] at hall
  refine List.perm_iff_count.mpr fun t => ?_
  have hcount := hall.count_eq t
  rw [List.count_append, hused.count_eq] at hcount
  rw [List.count_diff]
  omega

/-- The label of an edge lists how the argument matches the operand. -/
theorem edge?_slotGraph {l r operand : Nat} {t : Term} (hl : pattern.operands[l]? = some operand)
    (hr : arguments[r]? = some t) :
    ((pattern.slotGraph (arguments.map found)).edge? l r).getD [] = fits operand (found t) := by
  have hrow : (pattern.slotGraph (arguments.map found)).row l =
      rowOf found arguments operand := by
    rw [Bipartite.row, slotGraph_rows, List.getElem?_map, hl]
    rfl
  rw [Bipartite.edge?, hrow]
  cases hlookup : (rowOf found arguments operand).lookup r with
  | none =>
    by_contra hne
    rw [List.lookup_eq_none_iff] at hlookup
    have hmem : (r, fits operand (found t)) ∈ rowOf found arguments operand :=
      mem_rowOf.mpr ⟨t, hr, rfl, fun hnil => hne hnil.symm⟩
    exact absurd (hlookup _ hmem) (by simp)
  | some ways =>
    obtain ⟨before, after, hsplit, -⟩ := List.lookup_eq_some_iff.mp hlookup
    have hmem : (r, ways) ∈ rowOf found arguments operand := by
      rw [hsplit]
      simp
    obtain ⟨s, hs, rfl, -⟩ := mem_rowOf.mp hmem
    rw [Option.some.inj (hr.symm.trans hs)]
    rfl

/-- The unions that the fold over the slots builds. -/
theorem unionSlots_eq {f : List Nat} (l : Nat)
    (hlength : (pattern.operands.drop l).length = f.length)
    (hlt : ∀ r ∈ f, r < arguments.length) (partials : List Substitution) :
    (f.zipIdx l).foldl (fun partials (argument, slot) =>
        partials.flatMap fun union =>
          (((pattern.slotGraph (arguments.map found)).edge? slot argument).getD []).filterMap
            union.union?) partials =
      partials.flatMap
        (unionPairs (waysOf found) ((pattern.operands.drop l).zip (chosen arguments f))) := by
  induction f generalizing l partials with
  | nil => simp [chosen, unionPairs]
  | cons r f ih =>
    have hl : l < pattern.operands.length := by
      rw [List.length_drop, List.length_cons] at hlength
      omega
    have hget := List.getElem?_eq_getElem (hlt r List.mem_cons_self)
    have hrest : (pattern.operands.drop (l + 1)).length = f.length := by
      rw [List.length_drop, List.length_cons] at hlength
      rw [List.length_drop]
      omega
    rw [List.zipIdx_cons, List.foldl_cons,
      ih (l + 1) hrest (fun s hs => hlt s (List.mem_cons_of_mem r hs)), chosen_cons hget,
      List.drop_eq_getElem_cons hl, List.zip_cons_cons, List.flatMap_assoc]
    -- One slot: its operand and the argument at its right node.
    refine congrArg (List.flatMap · partials) (funext fun union => ?_)
    rw [edge?_slotGraph (List.getElem?_eq_getElem hl) hget]
    rfl

/-- **The matches are those of the complete matchings.** -/
theorem matchSorted_eq (pattern : CommutativePattern) (head : Head) (arguments : List Term)
    (found : Term → List (Nat × Substitution)) (σ : Substitution) :
    pattern.matchSorted head arguments (arguments.map found) σ =
      (matchings pattern arguments found).flatMap fun f =>
        outcomes head pattern.sequenceVars arguments (waysOf found) σ
          (assignedPairs pattern arguments f) := by
  -- Where the search is given up at once, there are no matchings.
  have hnone : arguments.length < pattern.operands.length ∨
      (pattern.slotGraph (arguments.map found)).maximumMatchingSize < pattern.operands.length →
        matchings pattern arguments found = [] := by
    intro hfew
    refine List.eq_nil_iff_forall_not_mem.mpr fun f hf => ?_
    have hassignment := isAssignment_of_mem_matchings hf
    have hleft : (pattern.slotGraph (arguments.map found)).left = pattern.operands.length := by
      rw [Bipartite.left, slotGraph_rows, List.length_map]
    have hright : (pattern.slotGraph (arguments.map found)).right = arguments.length :=
      List.length_map _
    have hle := hassignment.left_le_right inRange_slotGraph
    have hsize := Bipartite.left_le_maximumMatchingSize inRange_slotGraph hassignment
    omega
  unfold matchSorted
  by_cases hfew : arguments.length < pattern.operands.length ∨
      (pattern.slotGraph (arguments.map found)).maximumMatchingSize < pattern.operands.length
  · rw [if_pos (by simpa using hfew), hnone hfew]
    rfl
  · rw [if_neg (by simpa using hfew)]
    refine List.flatMap_congr fun f hf => ?_
    have hassignment := isAssignment_of_mem_matchings hf
    have hlength : (pattern.operands.drop 0).length = f.length := by
      have hrows := hassignment.edges.length_eq
      rwa [slotGraph_rows, List.length_map] at hrows
    have hunion : unionSlots (pattern.slotGraph (arguments.map found)) f σ =
        unionPairs (waysOf found) (assignedPairs pattern arguments f) σ := by
      rw [unionSlots, unionSlots_eq 0 hlength (lt_of_mem_assignment hassignment)]
      exact List.flatMap_singleton _ _
    have hleft : partitions (leftover arguments f) pattern.sequenceVars =
        partitions (arguments.diff ((assignedPairs pattern arguments f).map Prod.snd))
          pattern.sequenceVars := by
      refine partitions_eq_of_perm ((leftover_perm hassignment.nodup).trans (.of_eq ?_)) _
      rw [assignedPairs, List.map_snd_zip (Nat.le_of_eq (length_chosen hassignment))]
    rw [hunion, hleft, outcomes]
    cases hunions : unionPairs (waysOf found) (assignedPairs pattern arguments f) σ with
    | nil => simp
    | cons union more => rfl

/-! ### What is found -/

/-- The bindings of the named sequence variables to their parts. -/
def runBindings (head : Head) (vars : List SequenceVariable) (parts : List (List Term)) :
    List (String × Binding) :=
  (vars.zip parts).filterMap fun (var, run) => var.name.map fun name =>
    (name, runBinding head var run)

/-- A match without reference to the search: `ts` are the arguments of the operands, in
    the order of the slots, which they fit in the ways `τs`; `parts` are the parts of the
    sequence variables. -/
structure IsMatch (pattern : CommutativePattern) (head : Head) (arguments : List Term)
    (found : Term → List (Nat × Substitution)) (σ ρ : Substitution) (ts : List Term)
    (parts : List (List Term)) (τs : List Substitution) : Prop where
  length : ts.length = pattern.operands.length
  ways : List.Forall₂ (fun pair τ => τ ∈ waysOf found pair.1 pair.2)
    (pattern.operands.zip ts) τs
  admitted : List.Forall₂ (fun var run => run.Pairwise (fun s t => s.le t = true) ∧
    var.admits run.length = true) pattern.sequenceVars parts
  perm : arguments.Perm (ts ++ shares pattern.sequenceVars parts)
  binds : ∀ x b, ρ.find? x = some b ↔ σ.find? x = some b ∨ (∃ τ ∈ τs, τ.find? x = some b) ∨
    (x, b) ∈ runBindings head pattern.sequenceVars parts

/-- The order of the pairs only permutes their matches. -/
theorem outcomes_perm {head : Head} {vars : List SequenceVariable}
    {ways : Nat → Term → List Substitution} {σ : Substitution} {pairs others : List (Nat × Term)}
    (h : pairs.Perm others) :
    (outcomes head vars arguments ways σ pairs).Perm
      (outcomes head vars arguments ways σ others) := by
  unfold outcomes
  rw [List.Perm.diff_left arguments (h.map Prod.snd)]
  exact List.Perm.flatMap_left _ fun partition _ => (unionPairs_perm h σ).filterMap _

/-- Taking some arguments away leaves the other ones. -/
theorem diff_perm_of_perm_append {ts rest : List Term} (h : arguments.Perm (ts ++ rest)) :
    (arguments.diff ts).Perm rest := by
  refine List.perm_iff_count.mpr fun t => ?_
  have hcount := h.count_eq t
  rw [List.count_append] at hcount
  rw [List.count_diff]
  omega

/-- **What matching the arguments finds.** -/
theorem mem_matchSorted_iff {head : Head} {σ ρ : Substitution} :
    ρ ∈ pattern.matchSorted head arguments (arguments.map found) σ ↔
      ∃ ts parts τs, IsMatch pattern head arguments found σ ρ ts parts τs := by
  rw [matchSorted_eq, List.mem_flatMap]
  constructor
  · rintro ⟨f, hf, hρ⟩
    have hassignment := isAssignment_of_mem_matchings hf
    have hlength := length_chosen hassignment
    have hts : (assignedPairs pattern arguments f).map Prod.snd = chosen arguments f := by
      rw [assignedPairs, List.map_snd_zip (Nat.le_of_eq hlength)]
    obtain ⟨parts, hparts, hρ⟩ := List.mem_flatMap.mp hρ
    obtain ⟨union, hunion, hbind⟩ := List.mem_filterMap.mp hρ
    obtain ⟨τs, hτs, hgraph⟩ := mem_unionPairs_iff.mp hunion
    obtain ⟨hadmitted, hperm⟩ := mem_partitions_iff.mp hparts
    rw [hts] at hperm
    refine ⟨chosen arguments f, parts, τs, hlength, hτs, hadmitted, ?_, fun x b => ?_⟩
    · have hsub := (isPairing_of_isAssignment hassignment).arguments
      rw [hts] at hsub
      exact (List.subperm_append_diff_self_of_count_le
        (List.subperm_ext_iff.mp hsub)).symm.trans (hperm.append_left _)
    · rw [Substitution.bindAll?_eq_some_iff.mp hbind, hgraph, or_assoc]
      rfl
  · rintro ⟨ts, parts, τs, hlength, hways, hadmitted, hperm, hbinds⟩
    have hsnd : (pattern.operands.zip ts).map Prod.snd = ts :=
      List.map_snd_zip (Nat.le_of_eq hlength)
    have hpairing : IsPairing pattern.operands arguments found (pattern.operands.zip ts) := by
      refine ⟨?_, ?_, fun pair hpair hnil => ?_⟩
      · rw [List.map_fst_zip (Nat.le_of_eq hlength.symm)]
      · rw [hsnd]
        exact (List.sublist_append_left ts _).subperm.trans hperm.symm.subperm
      · obtain ⟨τ, -, hτ⟩ := Bipartite.exists_row_of_mem hways.flip hpair
        have hτ : τ ∈ fits pair.1 (found pair.2) := hτ
        rw [hnil] at hτ
        simp at hτ
    obtain ⟨f, hf, hpairs⟩ := exists_matching hpairing
    refine ⟨f, hf, (outcomes_perm hpairs).mem_iff.mpr ?_⟩
    -- All that is to be united is below `ρ`, so that it does not conflict.
    have hσ : σ.Below ρ := fun x b hx => (hbinds x b).mpr (.inl hx)
    have hτs : ∀ τ ∈ τs, τ.Below ρ := fun τ hτ x b hx =>
      (hbinds x b).mpr (.inr (.inl ⟨τ, hτ, hx⟩))
    obtain ⟨union, hunion⟩ := exists_mem_unionPairs hways hσ hτs
    refine List.mem_flatMap.mpr ⟨parts, mem_partitions_iff.mpr ⟨hadmitted, ?_⟩, ?_⟩
    · rw [hsnd]
      exact diff_perm_of_perm_append hperm
    · refine List.mem_filterMap.mpr ⟨union, hunion.1, ?_⟩
      refine Substitution.bindAll?_eq_some_iff.mpr fun x b => ?_
      rw [hbinds, hunion.2, or_assoc]
      rfl

/-! ### The numbers of the operands -/

/-- Two lists whose elements correspond to one another give the same results. -/
theorem perm_flatMap_of_corresponds {α β γ : Type} {xs : List α} {ys : List β}
    (hxs : xs.Nodup) (hys : ys.Nodup) {R : α → β → Prop} {g : α → List γ} {h : β → List γ}
    (hleft : ∀ x ∈ xs, ∃ y ∈ ys, R x y) (hright : ∀ y ∈ ys, ∃ x ∈ xs, R x y)
    (hfun : ∀ x ∈ xs, ∀ y ∈ ys, ∀ z ∈ ys, R x y → R x z → y = z)
    (hinj : ∀ x ∈ xs, ∀ z ∈ xs, ∀ y ∈ ys, R x y → R z y → x = z)
    (hgh : ∀ x ∈ xs, ∀ y ∈ ys, R x y → (g x).Perm (h y)) :
    (xs.flatMap g).Perm (ys.flatMap h) := by
  induction xs generalizing ys with
  | nil =>
    have hnil : ys = [] := List.eq_nil_iff_forall_not_mem.mpr fun y hy => by
      obtain ⟨x, hx, -⟩ := hright y hy
      exact List.not_mem_nil hx
    rw [hnil]
    exact .refl _
  | cons x xs ih =>
    obtain ⟨hx, hxs⟩ := List.nodup_cons.mp hxs
    obtain ⟨y, hy, hxy⟩ := hleft x List.mem_cons_self
    obtain ⟨before, after, rfl⟩ := List.append_of_mem hy
    have hfront : (before ++ y :: after).Perm (y :: (before ++ after)) := List.perm_middle
    obtain ⟨hyrest, hnodup⟩ := List.nodup_cons.mp (hfront.nodup_iff.mp hys)
    have hmem : ∀ z ∈ before ++ after, z ∈ before ++ y :: after := fun z hz =>
      hfront.mem_iff.mpr (List.mem_cons_of_mem y hz)
    -- Without `x` and its partner, the other elements still correspond to one another.
    have hrest := ih hxs hnodup
      (fun w hw => by
        obtain ⟨z, hz, hwz⟩ := hleft w (List.mem_cons_of_mem x hw)
        refine ⟨z, (List.mem_cons.mp (hfront.mem_iff.mp hz)).resolve_left fun heq => hx ?_, hwz⟩
        rw [hinj x List.mem_cons_self w (List.mem_cons_of_mem x hw) y hy hxy (heq ▸ hwz)]
        exact hw)
      (fun z hz => by
        obtain ⟨w, hw, hwz⟩ := hright z (hmem z hz)
        refine ⟨w, (List.mem_cons.mp hw).resolve_left fun heq => hyrest ?_, hwz⟩
        rw [hfun x List.mem_cons_self y hy z (hmem z hz) hxy (heq ▸ hwz)]
        exact hz)
      (fun w hw y hy z hz => hfun w (List.mem_cons_of_mem x hw) y (hmem y hy) z (hmem z hz))
      (fun w hw v hv y hy => hinj w (List.mem_cons_of_mem x hw) v (List.mem_cons_of_mem x hv) y
        (hmem y hy))
      (fun w hw z hz => hgh w (List.mem_cons_of_mem x hw) z (hmem z hz))
    rw [List.flatMap_cons]
    exact ((hgh x List.mem_cons_self y hy hxy).append hrest).trans (hfront.flatMap_right h).symm

/-- The pairs of a pairing consist of operands and arguments. -/
theorem IsPairing.mem {operands : List Nat} {pairs : List (Nat × Term)}
    (h : IsPairing operands arguments found pairs) {pair : Nat × Term} (hpair : pair ∈ pairs) :
    pair.1 ∈ operands ∧ pair.2 ∈ arguments :=
  ⟨h.operands.mem_iff.mp (List.mem_map_of_mem hpair),
    h.arguments.subset (List.mem_map_of_mem hpair)⟩

section Relabel

variable {operands labels : List Nat} {label : Nat → Nat}
variable {others : Term → List (Nat × Substitution)} {pairs more : List (Nat × Term)}

/-- Other numbers for the operands of a pairing. -/
theorem isPairing_relabel (h : IsPairing operands arguments found pairs)
    (hlabels : labels.Perm (operands.map label))
    (hfits : ∀ operand ∈ operands, ∀ t ∈ arguments,
      fits (label operand) (others t) = [] ↔ fits operand (found t) = []) :
    IsPairing labels arguments others (pairs.map fun pair => (label pair.1, pair.2)) := by
  refine ⟨?_, ?_, fun pair hpair => ?_⟩
  · have hcompose : (pairs.map fun pair => (label pair.1, pair.2)).map Prod.fst =
        (pairs.map Prod.fst).map label := by
      rw [List.map_map, List.map_map]
      rfl
    rw [hcompose]
    exact (h.operands.map label).trans hlabels.symm
  · rw [List.map_map]
    exact h.arguments
  · obtain ⟨source, hsource, rfl⟩ := List.mem_map.mp hpair
    obtain ⟨hoperand, ht⟩ := h.mem hsource
    exact fun hnil => h.fits source hsource ((hfits source.1 hoperand source.2 ht).mp hnil)

/-- Every pairing of the operands' other numbers is one of the operands, renumbered. -/
theorem exists_isPairing_of_relabel (h : IsPairing labels arguments others pairs)
    (hlabels : labels.Perm (operands.map label))
    (hfits : ∀ operand ∈ operands, ∀ t ∈ arguments,
      fits (label operand) (others t) = [] ↔ fits operand (found t) = []) :
    ∃ more, IsPairing operands arguments found more ∧
      (more.map fun pair => (label pair.1, pair.2)).Perm pairs := by
  obtain ⟨more, hmap, hperm⟩ := Bipartite.exists_pairs_of_perm (h.operands.trans hlabels)
  have hsnd : (more.map Prod.snd).Perm (pairs.map Prod.snd) := by
    have hboth := hperm.map Prod.snd
    rwa [List.map_map] at hboth
  refine ⟨more, ⟨.of_eq hmap, hsnd.subperm.trans h.arguments, fun pair hpair hnil => ?_⟩, hperm⟩
  have hrelabel : (label pair.1, pair.2) ∈ pairs :=
    hperm.mem_iff.mp (List.mem_map_of_mem (f := Prod.map label id) hpair)
  have hoperand : pair.1 ∈ operands := hmap ▸ List.mem_map_of_mem hpair
  have hboth := hfits pair.1 hoperand pair.2 (h.mem hrelabel).2
  exact h.fits _ hrelabel (hboth.mpr hnil)

/-- Different pairings stay different when the operands get other numbers. -/
theorem IsPairing.perm_of_relabel (hlabel : Set.InjOn label {operand | operand ∈ operands})
    (hpairs : IsPairing operands arguments found pairs)
    (hmore : IsPairing operands arguments found more)
    (hperm : (pairs.map fun pair => (label pair.1, pair.2)).Perm
      (more.map fun pair => (label pair.1, pair.2))) : pairs.Perm more := by
  let inverse := fun pair : Nat × Term =>
    (Function.invFunOn label {operand | operand ∈ operands} pair.1, pair.2)
  have hback : ∀ {pairs}, IsPairing operands arguments found pairs →
      (pairs.map fun pair => (label pair.1, pair.2)).map inverse = pairs := by
    intro pairs h
    rw [List.map_map]
    refine (List.map_congr_left fun pair hpair => ?_).trans (List.map_id pairs)
    have hinverse := hlabel.leftInvOn_invFunOn (h.mem hpair).1
    exact Prod.ext hinverse rfl
  have hmap := hperm.map inverse
  rwa [hback hpairs, hback hmore] at hmap

end Relabel

/-- **Where operands correspond to one another, so do pairings:** an argument has to fit an
    operand just if it fits the one that corresponds to it. -/
theorem flatMap_matchings_perm {γ : Type} {pattern other : CommutativePattern}
    {found others : Term → List (Nat × Substitution)} {label : Nat → Nat}
    (harguments : arguments.Pairwise (fun s t => s.le t = true))
    (hpattern : pattern.operands.Pairwise (· ≤ ·)) (hother : other.operands.Pairwise (· ≤ ·))
    (hlabel : Set.InjOn label {operand | operand ∈ pattern.operands})
    (hoperands : other.operands.Perm (pattern.operands.map label))
    (hfits : ∀ operand ∈ pattern.operands, ∀ t ∈ arguments,
      fits (label operand) (others t) = [] ↔ fits operand (found t) = [])
    {g h : List (Nat × Term) → List γ}
    (hgh : ∀ pairs, IsPairing pattern.operands arguments found pairs →
      ∀ more, (pairs.map fun pair => (label pair.1, pair.2)).Perm more → (g pairs).Perm (h more)) :
    ((matchings pattern arguments found).flatMap fun f =>
        g (assignedPairs pattern arguments f)).Perm
      ((matchings other arguments others).flatMap fun f =>
        h (assignedPairs other arguments f)) := by
  have hpairing : ∀ f ∈ matchings pattern arguments found,
      IsPairing pattern.operands arguments found (assignedPairs pattern arguments f) :=
    fun f hf => isPairing_of_isAssignment (isAssignment_of_mem_matchings hf)
  have hpairing' : ∀ g ∈ matchings other arguments others,
      IsPairing other.operands arguments others (assignedPairs other arguments g) :=
    fun g hg => isPairing_of_isAssignment (isAssignment_of_mem_matchings hg)
  -- Two matchings correspond if the pairings that they stand for do; which pairing that is
  -- determines the matching, on either side.
  refine perm_flatMap_of_corresponds nodup_matchings nodup_matchings
    (R := fun f g => ((assignedPairs pattern arguments f).map fun pair =>
      (label pair.1, pair.2)).Perm (assignedPairs other arguments g)) ?_ ?_ ?_ ?_ ?_
  · intro f hf
    obtain ⟨g, hg, hperm⟩ := exists_matching (isPairing_relabel (hpairing f hf) hoperands hfits)
    exact ⟨g, hg, hperm.symm⟩
  · intro g hg
    obtain ⟨more, hmore, hrelabel⟩ := exists_isPairing_of_relabel (hpairing' g hg) hoperands hfits
    obtain ⟨f, hf, hperm⟩ := exists_matching hmore
    exact ⟨f, hf, (hperm.map _).trans hrelabel⟩
  · intro f hf g hg h hh hfg hfh
    exact matching_unique hother harguments hg hh (hfg.symm.trans hfh)
  · intro f hf h hh g hg hfg hhg
    exact matching_unique hpattern harguments hf hh
      ((hpairing f hf).perm_of_relabel hlabel (hpairing h hh) (hfg.trans hhg.symm))
  · exact fun f hf g hg hfg => hgh _ (hpairing f hf) _ hfg

/-- **The numbers of the operands make no difference.**  Two patterns whose operands
    correspond to one another, with the same ways in any order, have the same matches
    in some order. -/
theorem matchSorted_perm (pattern other : CommutativePattern) (head : Head)
    {arguments : List Term} {found others : Term → List (Nat × Substitution)} {label : Nat → Nat}
    (harguments : arguments.Pairwise (fun s t => s.le t = true))
    (hpattern : pattern.operands.Pairwise (· ≤ ·)) (hother : other.operands.Pairwise (· ≤ ·))
    (hlabel : Set.InjOn label {operand | operand ∈ pattern.operands})
    (hoperands : other.operands.Perm (pattern.operands.map label))
    (hvars : other.sequenceVars = pattern.sequenceVars)
    (hways : ∀ operand ∈ pattern.operands, ∀ t ∈ arguments,
      (fits (label operand) (others t)).Perm (fits operand (found t))) (σ : Substitution) :
    (pattern.matchSorted head arguments (arguments.map found) σ).Perm
      (other.matchSorted head arguments (arguments.map others) σ) := by
  rw [matchSorted_eq, matchSorted_eq, hvars]
  refine flatMap_matchings_perm harguments hpattern hother hlabel hoperands
    (fun operand hoperand t ht => ?_) fun pairs hpairs more hmore => ?_
  · have hperm := hways operand hoperand t ht
    exact ⟨fun hnil => (hperm.symm.trans (.of_eq hnil)).eq_nil,
      fun hnil => (hperm.trans (.of_eq hnil)).eq_nil⟩
  · have hsame : (unionPairs (waysOf others) (pairs.map fun pair => (label pair.1, pair.2)) σ).Perm
        (unionPairs (waysOf found) pairs σ) := by
      refine unionPairs_relabel label (fun pair hpair => ?_) σ
      exact hways pair.1 (hpairs.operands.mem_iff.mp (List.mem_map_of_mem hpair)) pair.2
        (hpairs.arguments.subset (List.mem_map_of_mem hpair))
    -- The arguments that are left over are the same, and so are their partitions.
    have houtcomes : (outcomes head pattern.sequenceVars arguments (waysOf found) σ pairs).Perm
        (outcomes head pattern.sequenceVars arguments (waysOf others) σ
          (pairs.map fun pair => (label pair.1, pair.2))) := by
      unfold outcomes
      rw [List.map_map]
      exact List.Perm.flatMap_left _ fun partition _ => hsame.symm.filterMap _
    exact houtcomes.trans (outcomes_perm hmore)

end TermNet.CommutativePattern
