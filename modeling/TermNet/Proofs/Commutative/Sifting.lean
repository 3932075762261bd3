import Mathlib.Data.List.Forall2
import TermNet.Proofs.Commutative.Matching
import TermNet.Proofs.Net.Explore

namespace TermNet

/-!
# Leaving out ways to fit operands

A search may drop a partial result as soon as it is known to be of no use, or carry it
on and refuse everything that comes of it.  Both find the same in the same order: one
list of results is the other one without some elements, all of which are bad.

For the matches of a commutative operation this means: leaving out some ways in which
arguments fit operands leaves out edges of the graph, and so whole matchings.  What is left
of the matches stands in the same order, and only matches that one of these ways is part of
are lost.

* `Sifted bad as bs` — `as` is `bs` without some of its bad elements;
* `Sifted.flatMap`, `Sifted.filterMap` — steps of a search;
* `Sifted.filterMap_eq`, `Sifted.flatMap_eq` — steps that refuse whatever is bad;
* `Persistent` — what stays true of substitutions when more is bound;
* `sifted_assignments` — the search for matchings with fewer edges;
* `sifted_unionPairs`, `sifted_outcomes` — unions and matches of one pairing;
* `sifted_matchSorted`, `sifted_solve` — all matches.
-/

section Lists

variable {α β : Type}

/-- The first list is the second one without some of its bad elements. -/
inductive Sifted (bad : α → Prop) : List α → List α → Prop
  | nil : Sifted bad [] []
  | keep (a : α) {as bs : List α} (h : Sifted bad as bs) : Sifted bad (a :: as) (a :: bs)
  | drop {b : α} (hbad : bad b) {as bs : List α} (h : Sifted bad as bs) : Sifted bad as (b :: bs)

namespace Sifted

variable {bad : α → Prop} {worse : β → Prop} {as bs cs ds : List α}

/-- Nothing is left out. -/
theorem refl (as : List α) : Sifted bad as as := by
  induction as with
  | nil => exact .nil
  | cons a as ih => exact .keep a ih

/-- Equal lists leave out nothing. -/
theorem of_eq (h : as = bs) : Sifted bad as bs := h ▸ .refl as

/-- Nothing is left of bad elements. -/
theorem nil_of_forall (h : ∀ b ∈ bs, bad b) : Sifted bad [] bs := by
  induction bs with
  | nil => exact .nil
  | cons b bs ih =>
    exact .drop (h b List.mem_cons_self) (ih fun c hc => h c (List.mem_cons_of_mem _ hc))

/-- Two lists, something being left out of each. -/
theorem append (h : Sifted bad as bs) (hmore : Sifted bad cs ds) :
    Sifted bad (as ++ cs) (bs ++ ds) := by
  induction h with
  | nil => exact hmore
  | keep a _ ih => exact .keep a ih
  | drop hbad _ ih => exact .drop hbad ih

/-- What is left stands in the same order. -/
theorem sublist (h : Sifted bad as bs) : as.Sublist bs := by
  induction h with
  | nil => exact .slnil
  | keep a _ ih => exact ih.cons_cons a
  | drop _ _ ih => exact ih.cons _

/-- If everything is bad, anything may be left out. -/
theorem of_sublist (h : as.Sublist bs) (hbad : ∀ b ∈ bs, bad b) : Sifted bad as bs := by
  induction h with
  | slnil => exact .nil
  | cons b _ ih =>
    exact .drop (hbad b List.mem_cons_self) (ih fun c hc => hbad c (List.mem_cons_of_mem _ hc))
  | cons_cons b _ ih => exact .keep b (ih fun c hc => hbad c (List.mem_cons_of_mem _ hc))

/-- Filtering both lists. -/
theorem filter (keeps : α → Bool) (h : Sifted bad as bs) :
    Sifted bad (as.filter keeps) (bs.filter keeps) := by
  induction h with
  | nil => exact .nil
  | keep a _ ih =>
    cases ha : keeps a with
    | true =>
      rw [List.filter_cons_of_pos ha, List.filter_cons_of_pos ha]
      exact .keep a ih
    | false =>
      rw [List.filter_cons_of_neg (by simp [ha]), List.filter_cons_of_neg (by simp [ha])]
      exact ih
  | @drop b hbad as bs _ ih =>
    cases hb : keeps b with
    | true =>
      rw [List.filter_cons_of_pos hb]
      exact .drop hbad ih
    | false =>
      rw [List.filter_cons_of_neg (by simp [hb])]
      exact ih

/-! ### Steps of a search -/

/-- What comes of sifted elements is sifted, if only bad things come of bad ones. -/
theorem flatMap {f g : α → List β} (h : Sifted bad as bs)
    (hstep : ∀ b ∈ bs, Sifted worse (f b) (g b)) (hbad : ∀ b ∈ bs, bad b → ∀ c ∈ g b, worse c) :
    Sifted worse (as.flatMap f) (bs.flatMap g) := by
  induction h with
  | nil => exact .nil
  | keep a _ ih =>
    rw [List.flatMap_cons, List.flatMap_cons]
    exact (hstep a List.mem_cons_self).append
      (ih (fun b hb => hstep b (List.mem_cons_of_mem _ hb))
        fun b hb => hbad b (List.mem_cons_of_mem _ hb))
  | @drop b hb as bs _ ih =>
    rw [List.flatMap_cons]
    have hnone : Sifted worse [] (g b) := .nil_of_forall (hbad b List.mem_cons_self hb)
    exact hnone.append (ih (fun c hc => hstep c (List.mem_cons_of_mem _ hc))
      fun c hc => hbad c (List.mem_cons_of_mem _ hc))

/-- What comes of bad things is worse, or nothing. -/
theorem filterMap {f : α → Option β} (h : Sifted bad as bs)
    (hbad : ∀ b ∈ bs, bad b → ∀ c, f b = some c → worse c) :
    Sifted worse (as.filterMap f) (bs.filterMap f) := by
  have hflat : ∀ xs : List α, xs.filterMap f = xs.flatMap fun a => (f a).toList := by
    intro xs
    induction xs with
    | nil => rfl
    | cons x xs ih => cases hx : f x <;> simp [hx, ih]
  rw [hflat, hflat]
  refine h.flatMap (fun b _ => .refl _) fun b hb hbadb c hc => ?_
  exact hbad b hb hbadb c (Option.mem_toList.mp hc)

/-- What is made of bad things is worse. -/
theorem map {f : α → β} (h : Sifted bad as bs) (hbad : ∀ b ∈ bs, bad b → worse (f b)) :
    Sifted worse (as.map f) (bs.map f) := by
  rw [← List.filterMap_eq_map]
  exact h.filterMap fun b hb hbadb c hc => Option.some.inj hc ▸ hbad b hb hbadb

/-- What is left out may be called bad for other reasons. -/
theorem imp (h : Sifted bad as bs) {worse : α → Prop} (hbad : ∀ b ∈ bs, bad b → worse b) :
    Sifted worse as bs := by
  have hmap := h.map (f := id) hbad
  rwa [List.map_id, List.map_id] at hmap

/-- Leaving out elements in every step. -/
theorem flatMap_of_forall {f g : α → List β} (hstep : ∀ b ∈ bs, Sifted worse (f b) (g b)) :
    Sifted worse (bs.flatMap f) (bs.flatMap g) := by
  have hnone : Sifted (fun _ => False) bs bs := .refl bs
  exact hnone.flatMap hstep fun _ _ hfalse => hfalse.elim

/-! ### Refusing what is bad -/

/-- Where nothing comes of bad elements, it makes no difference whether they are there. -/
theorem flatMap_eq {f : α → List β} (h : Sifted bad as bs) (hbad : ∀ b ∈ bs, bad b → f b = []) :
    as.flatMap f = bs.flatMap f := by
  induction h with
  | nil => rfl
  | keep a _ ih =>
    rw [List.flatMap_cons, List.flatMap_cons, ih fun b hb => hbad b (List.mem_cons_of_mem _ hb)]
  | drop hb _ ih =>
    rw [List.flatMap_cons, hbad _ List.mem_cons_self hb, List.nil_append,
      ih fun b hb => hbad b (List.mem_cons_of_mem _ hb)]

/-- **A step that refuses whatever is bad** finds the same in both lists. -/
theorem filterMap_eq {f : α → Option β} (h : Sifted bad as bs)
    (hbad : ∀ b ∈ bs, bad b → f b = none) : as.filterMap f = bs.filterMap f := by
  induction h with
  | nil => rfl
  | keep a _ ih =>
    rw [List.filterMap_cons, List.filterMap_cons,
      ih fun b hb => hbad b (List.mem_cons_of_mem _ hb)]
  | drop hb _ ih =>
    rw [List.filterMap_cons_none (hbad _ List.mem_cons_self hb),
      ih fun b hb => hbad b (List.mem_cons_of_mem _ hb)]

end Sifted

end Lists

namespace CommutativePattern

/-- A property of substitutions that stays when more is bound. -/
def Persistent (bad : Substitution → Prop) : Prop := ∀ σ τ, σ.Below τ → bad σ → bad τ

variable {bad : Substitution → Prop}

/-! ### Matchings -/

/-- **The search for matchings with fewer edges** finds the same matchings without those
    that use an edge which is gone. -/
theorem sifted_assignments {ε : Type} {sameLeft sameRight : Nat → Nat → Bool}
    {rows others : List (List (Nat × ε))}
    (h : List.Forall₂ (fun row other =>
      Sifted (· ∉ row.map Prod.fst) (row.map Prod.fst) (other.map Prod.fst)) rows others)
    (assigned : List Nat) :
    Sifted (fun f => ∀ rest, f = assigned ++ rest →
        ¬ List.Forall₂ (fun row r => r ∈ row.map Prod.fst) rows rest)
      (Bipartite.assignments sameLeft sameRight rows assigned)
      (Bipartite.assignments sameLeft sameRight others assigned) := by
  induction h generalizing assigned with
  | nil => exact .refl _
  | @cons row other rows others hrow _ ih =>
    have hmay := hrow.filter (Bipartite.mayAssign sameLeft sameRight assigned)
    -- what continues an assignment begins with its next node
    have hbegins : ∀ {r : Nat} {f rest : List Nat},
        f ∈ Bipartite.assignments sameLeft sameRight others (assigned ++ [r]) →
        f = assigned ++ rest → ∃ later, rest = r :: later ∧ f = (assigned ++ [r]) ++ later := by
      intro r f rest hf heq
      obtain ⟨later, hlater, -⟩ := Bipartite.mem_assignments_iff.mp hf
      refine ⟨later, ?_, hlater⟩
      rw [heq, List.append_assoc] at hlater
      exact List.append_cancel_left hlater
    refine hmay.flatMap (fun r _ => ?_) fun r _ hr f hf rest heq hall => ?_
    · refine (ih (assigned ++ [r])).imp fun f hf hbad rest heq hall => ?_
      obtain ⟨later, rfl, hlater⟩ := hbegins hf heq
      exact hbad later hlater (List.forall₂_cons.mp hall).2
    · obtain ⟨later, rfl, -⟩ := hbegins hf heq
      exact hr (List.forall₂_cons.mp hall).1

/-! ### Matches of one pairing -/

/-- **Unions of fewer ways.** -/
theorem sifted_unionPairs (hpersistent : Persistent bad)
    {ways others : Nat → Term → List Substitution} {pairs : List (Nat × Term)}
    (h : ∀ pair ∈ pairs, Sifted bad (ways pair.1 pair.2) (others pair.1 pair.2))
    (σ : Substitution) : Sifted bad (unionPairs ways pairs σ) (unionPairs others pairs σ) := by
  induction pairs generalizing σ with
  | nil => exact .refl _
  | cons pair rest ih =>
    have hfirst := h pair List.mem_cons_self
    have hunions : Sifted bad ((ways pair.1 pair.2).filterMap σ.union?)
        ((others pair.1 pair.2).filterMap σ.union?) :=
      hfirst.filterMap fun τ _ hτ ρ hρ =>
        hpersistent τ ρ (Substitution.below_of_union? hρ).2 hτ
    refine hunions.flatMap
      (fun ρ _ => ih (fun later hlater => h later (List.mem_cons_of_mem _ hlater)) ρ)
      fun ρ _ hρ υ hυ => ?_
    obtain ⟨_, _, hbinds⟩ := mem_unionPairs_iff.mp hυ
    exact hpersistent ρ υ (fun x b hx => (hbinds x b).mpr (.inl hx)) hρ

/-- Binding sequence variables takes no binding back. -/
theorem bindVariables?_below {head : Head} {vars : List SequenceVariable} {σ ρ : Substitution}
    {partition : List (List Term)} (h : bindVariables? head σ vars partition = some ρ) :
    σ.Below ρ := fun x b hx => (Substitution.bindAll?_eq_some_iff.mp h x b).mpr (.inl hx)

/-- The matches of one pairing, with fewer ways to fit operands. -/
theorem sifted_outcomes (hpersistent : Persistent bad) (head : Head)
    (vars : List SequenceVariable) (arguments : List Term)
    {ways others : Nat → Term → List Substitution} {pairs : List (Nat × Term)}
    (h : ∀ pair ∈ pairs, Sifted bad (ways pair.1 pair.2) (others pair.1 pair.2))
    (σ : Substitution) :
    Sifted bad (outcomes head vars arguments ways σ pairs)
      (outcomes head vars arguments others σ pairs) := by
  refine Sifted.flatMap_of_forall fun partition _ => ?_
  exact (sifted_unionPairs hpersistent h σ).filterMap fun ρ _ hρ υ hυ =>
    hpersistent ρ υ (bindVariables?_below hυ) hρ

/-- Where an operand has no way to fit its argument, nothing comes of the pairing. -/
theorem outcomes_eq_nil {head : Head} {vars : List SequenceVariable} {arguments : List Term}
    {ways : Nat → Term → List Substitution} {pairs : List (Nat × Term)} {pair : Nat × Term}
    (hpair : pair ∈ pairs) (h : ways pair.1 pair.2 = []) (σ : Substitution) :
    outcomes head vars arguments ways σ pairs = [] := by
  have hnone : unionPairs ways pairs σ = [] := by
    refine List.eq_nil_iff_forall_not_mem.mpr fun ρ hρ => ?_
    obtain ⟨τs, hτs, -⟩ := mem_unionPairs_iff.mp hρ
    obtain ⟨τ, -, hτ⟩ := Bipartite.exists_row_of_mem hτs.flip hpair
    rw [h] at hτ
    exact absurd hτ List.not_mem_nil
  simp [outcomes, hnone]

/-! ### All matches -/

variable {pattern : CommutativePattern} {arguments : List Term}
variable {found others : Term → List (Nat × Substitution)}

/-- The row of an operand, with fewer ways to fit it. -/
theorem sifted_rowOf {operand : Nat}
    (h : ∀ t ∈ arguments, Sifted bad (fits operand (found t)) (fits operand (others t))) :
    Sifted (· ∉ (rowOf found arguments operand).map Prod.fst)
      ((rowOf found arguments operand).map Prod.fst)
      ((rowOf others arguments operand).map Prod.fst) := by
  -- both are the numbers of some arguments, in order
  have hnumbers : ∀ (ways : Term → List (Nat × Substitution)),
      (rowOf ways arguments operand).map Prod.fst =
        (arguments.zipIdx.filter fun pair =>
          !(fits operand (ways pair.1)).isEmpty).map Prod.snd := by
    intro ways
    rw [rowOf, List.zipIdx_map, List.filterMap_map]
    induction arguments.zipIdx with
    | nil => rfl
    | cons first rest ih =>
      obtain ⟨t, r⟩ := first
      cases hfits : fits operand (ways t) with
      | nil => simpa [hfits] using ih
      | cons way more => simpa [hfits] using ih
  have hsub : ((rowOf found arguments operand).map Prod.fst).Sublist
      ((rowOf others arguments operand).map Prod.fst) := by
    rw [hnumbers, hnumbers]
    refine List.Sublist.map _ ?_
    have hboth : (arguments.zipIdx.filter fun pair => !(fits operand (found pair.1)).isEmpty) =
        (arguments.zipIdx.filter fun pair => !(fits operand (others pair.1)).isEmpty).filter
          fun pair => !(fits operand (found pair.1)).isEmpty := by
      rw [List.filter_filter]
      refine List.filter_congr ?_
      rintro ⟨t, r⟩ ht
      have hmem : t ∈ arguments := (List.mem_zipIdx' ht).2 ▸ List.getElem_mem _
      have hsifted := (h t hmem).sublist
      cases hfits : fits operand (others t) with
      | nil => simp [List.sublist_nil.mp (hfits ▸ hsifted)]
      | cons way more => simp
    rw [hboth]
    exact List.filter_sublist
  have hnodup : ((rowOf others arguments operand).map Prod.fst).Nodup := nodup_rowOf operand
  generalize (rowOf found arguments operand).map Prod.fst = as at hsub
  generalize (rowOf others arguments operand).map Prod.fst = bs at hsub hnodup
  induction hsub with
  | slnil => exact .nil
  | @cons as bs b hsub ih =>
    obtain ⟨hb, hrest⟩ := List.nodup_cons.mp hnodup
    exact .drop (fun hmem => hb (hsub.subset hmem)) (ih hrest)
  | @cons_cons as bs b hsub ih =>
    obtain ⟨hb, hrest⟩ := List.nodup_cons.mp hnodup
    refine .keep b ((ih hrest).imp fun c hc hnot hmem => ?_)
    rcases List.mem_cons.mp hmem with rfl | hmem
    · exact hb hc
    · exact hnot hmem

/-- An assignment from which matches come runs along edges. -/
theorem edges_of_outcomes {head : Head} {vars : List SequenceVariable} {σ : Substitution}
    {f : List Nat}
    (hassigned : Bipartite.IsAssignment (pattern.slotGraph (arguments.map others)).rows f)
    (hsome : outcomes head vars arguments (waysOf found) σ
      (assignedPairs pattern arguments f) ≠ []) :
    List.Forall₂ (fun row r => r ∈ row.map Prod.fst)
      (pattern.slotGraph (arguments.map found)).rows f := by
  have hways : ∀ pair ∈ assignedPairs pattern arguments f, waysOf found pair.1 pair.2 ≠ [] :=
    fun pair hpair hnone => hsome (outcomes_eq_nil hpair hnone σ)
  have hlt := lt_of_mem_assignment hassigned
  have hlength := length_chosen hassigned
  have hedges := hassigned.edges
  rw [slotGraph_rows, List.forall₂_map_left_iff] at hedges ⊢
  have hchosen := map_getElem?_eq hlt
  rw [assignedPairs] at hways
  -- the arguments are looked up one after the other, beside the operands
  generalize chosen arguments f = ts at hways hlength hchosen
  generalize pattern.operands = operands at hways hlength hedges
  clear hsome hassigned
  induction hedges generalizing ts with
  | nil => exact .nil
  | @cons o r operands f _ _ ih =>
    cases ts with
    | nil => simp at hlength
    | cons t ts =>
      rw [List.map_cons, List.map_cons, List.cons.injEq] at hchosen
      refine .cons (mem_map_fst_rowOf.mpr ⟨t, hchosen.1, hways (o, t) List.mem_cons_self⟩) ?_
      exact ih (fun r hr => hlt r (List.mem_cons_of_mem _ hr)) ts hchosen.2
        (fun pair hpair => hways pair (List.mem_cons_of_mem _ hpair)) (by simpa using hlength)

/-- **All matches with fewer ways to fit.** -/
theorem sifted_matchSorted (hpersistent : Persistent bad) (head : Head)
    (h : ∀ o ∈ pattern.operands, ∀ t ∈ arguments, Sifted bad (fits o (found t)) (fits o (others t)))
    (σ : Substitution) :
    Sifted bad (pattern.matchSorted head arguments (arguments.map found) σ)
      (pattern.matchSorted head arguments (arguments.map others) σ) := by
  rw [matchSorted_eq, matchSorted_eq]
  have hrows : List.Forall₂ (fun row other =>
      Sifted (· ∉ row.map Prod.fst) (row.map Prod.fst) (other.map Prod.fst))
      (pattern.slotGraph (arguments.map found)).rows
      (pattern.slotGraph (arguments.map others)).rows := by
    rw [slotGraph_rows, slotGraph_rows, List.forall₂_map_left_iff, List.forall₂_map_right_iff]
    exact List.forall₂_same.mpr fun o ho => sifted_rowOf (h o ho)
  have hmatchings : Sifted (fun f => ¬ List.Forall₂ (fun row r => r ∈ row.map Prod.fst)
        (pattern.slotGraph (arguments.map found)).rows f)
      (matchings pattern arguments found) (matchings pattern arguments others) := by
    have hleft : (pattern.slotGraph (arguments.map found)).left =
        (pattern.slotGraph (arguments.map others)).left := hrows.length_eq
    have hright : (pattern.slotGraph (arguments.map found)).right =
        (pattern.slotGraph (arguments.map others)).right := by
      simp [slotGraph]
    unfold matchings Bipartite.completeMatchings
    rw [hleft, hright]
    split
    · exact .nil
    · exact (sifted_assignments hrows []).imp fun f _ hbad => hbad f rfl
  -- Assignments along edges that are gone have no outcomes any more.
  have houtcomes : ∀ f ∈ matchings pattern arguments others,
      ¬ List.Forall₂ (fun row r => r ∈ row.map Prod.fst)
        (pattern.slotGraph (arguments.map found)).rows f →
      outcomes head pattern.sequenceVars arguments (waysOf found) σ
        (assignedPairs pattern arguments f) = [] := fun f hf hbad =>
    by_contra fun hsome => hbad (edges_of_outcomes (isAssignment_of_mem_matchings hf) hsome)
  rw [hmatchings.flatMap_eq houtcomes]
  refine Sifted.flatMap_of_forall fun f hf => ?_
  refine sifted_outcomes hpersistent head pattern.sequenceVars arguments (fun pair hpair => ?_) σ
  obtain ⟨ho, ht⟩ := List.of_mem_zip hpair
  obtain ⟨r, -, hr⟩ := List.mem_filterMap.mp ht
  exact h pair.1 ho pair.2 (List.mem_of_getElem? hr)

/-- **All matches of one pattern with fewer ways to fit.** -/
theorem sifted_solve (hpersistent : Persistent bad) {m others : OperandMatcher}
    (hhead : m.head = others.head) (hpatterns : m.patterns = others.patterns) {index : Nat}
    (h : ∀ pattern, others.patterns[index]? = some pattern → ∀ o ∈ pattern.operands, ∀ t,
      Sifted bad (fits o (m.matchOperand t)) (fits o (others.matchOperand t)))
    (args : List Term) (σ : Substitution) :
    Sifted bad (m.solve args σ index) (others.solve args σ index) := by
  unfold OperandMatcher.solve
  rw [hpatterns, hhead]
  cases hpattern : others.patterns[index]? with
  | none => exact .nil
  | some pattern =>
    exact sifted_matchSorted hpersistent others.head (fun o ho t _ => h pattern hpattern o ho t) σ

end TermNet.CommutativePattern
