import Mathlib.Data.Finset.Basic
import Mathlib.Data.Fintype.EquivFin
import Mathlib.Data.List.FinRange
import TermNet.Proofs.Bipartite.CompleteMatchings

namespace TermNet.Bipartite

/-!
# Exchanging alike nodes

Nodes are alike in the sense of an equivalence relation whose classes are intervals.  One
assignment arises from another by exchanging alike nodes just if both pair the same classes
equally often; so what is known about pairings of classes holds up to such exchanges.

* `IntervalClasses` — equivalence relations on nodes whose classes are intervals;
* `Exchanges` — how assignments differ by permutations within classes;
* `IntervalClasses.classOf` — the class of a node;
* `exists_perm_extending` — an injection that keeps classes extends to a permutation;
* `exchanges_iff` — assignments differ by exchanges just if they have the same pairs;
* `completeMatchings_congr` — the search only asks about neighbouring nodes of the graph.
-/

variable {ε : Type}

/-- The test is an equivalence relation on the nodes below `count`, and its classes are
    intervals. -/
structure IntervalClasses (count : Nat) (same : Nat → Nat → Bool) : Prop where
  equivalence : Equivalence fun a b : Fin count => same a b = true
  interval : ∀ a b c : Fin count, a ≤ b → b ≤ c → same a c = true → same a b = true

/-- `g` arises from `f` by permuting alike left nodes among themselves, and alike right nodes
    among themselves: where `f` pairs two nodes, `g` pairs those that stand in their place. -/
def Exchanges (graph : Bipartite ε) (sameLeft sameRight : Nat → Nat → Bool) (f g : List Nat) :
    Prop :=
  ∃ (π : Equiv.Perm (Fin graph.left)) (τ : Equiv.Perm (Fin graph.right)),
    (∀ l : Fin graph.left, sameLeft l (π l) = true) ∧
    (∀ r : Fin graph.right, sameRight r (τ r) = true) ∧
    ∀ (l : Fin graph.left) (r : Fin graph.right),
      f[l.val]? = some r.val ↔ g[(π l).val]? = some (τ r).val

variable {count : Nat} {same : Nat → Nat → Bool}

/-! ### Classes -/

/-- Nodes that are not in the graph are only alike to themselves. -/
def IntervalClasses.setoid (h : IntervalClasses count same) : Setoid Nat where
  r a b := a = b ∨ a < count ∧ b < count ∧ same a b = true
  iseqv := by
    refine ⟨fun a => .inl rfl, ?_, ?_⟩
    · rintro a b (rfl | ⟨ha, hb, hab⟩)
      · exact .inl rfl
      · exact .inr ⟨hb, ha, h.equivalence.symm (x := ⟨a, ha⟩) (y := ⟨b, hb⟩) hab⟩
    · rintro a b c (rfl | ⟨ha, hb, hab⟩) (rfl | ⟨hb', hc, hbc⟩)
      · exact .inl rfl
      · exact .inr ⟨hb', hc, hbc⟩
      · exact .inr ⟨ha, hb, hab⟩
      · exact .inr ⟨ha, hc,
          h.equivalence.trans (x := ⟨a, ha⟩) (y := ⟨b, hb⟩) (z := ⟨c, hc⟩) hab hbc⟩

/-- The class of a node. -/
def IntervalClasses.classOf (h : IntervalClasses count same) (a : Nat) : Quotient h.setoid :=
  Quotient.mk h.setoid a

/-- The test, restricted to nodes of the graph. -/
def within (count : Nat) (same : Nat → Nat → Bool) (a b : Nat) : Bool :=
  decide (a < count) && decide (b < count) && same a b

/-- Two numbers are in one class if they are equal, or both in range and the same. -/
theorem IntervalClasses.classOf_eq_iff (h : IntervalClasses count same) {a b : Nat} :
    h.classOf a = h.classOf b ↔ a = b ∨ a < count ∧ b < count ∧ same a b = true :=
  Quotient.eq

/-- Nodes of the graph are alike just if they have the same class. -/
theorem IntervalClasses.classOf_eq_iff_same (h : IntervalClasses count same) (a b : Fin count) :
    h.classOf a = h.classOf b ↔ same a b = true := by
  rw [h.classOf_eq_iff]
  constructor
  · rintro (heq | ⟨-, -, hab⟩)
    · exact Fin.ext heq ▸ h.equivalence.refl a
    · exact hab
  · exact fun hab => .inr ⟨a.isLt, b.isLt, hab⟩

/-- Neighbors are in one class if the relation within the range says that they are the same. -/
theorem IntervalClasses.within_iff (h : IntervalClasses count same) (a : Nat) :
    within count same a (a + 1) = true ↔ h.classOf a = h.classOf (a + 1) := by
  rw [h.classOf_eq_iff, within]
  simp [and_assoc]

/-- Classes are intervals: whatever is between two members of a class is a member. -/
theorem IntervalClasses.contiguous (h : IntervalClasses count same) : Contiguous h.classOf := by
  intro a b c hab hbc hac
  -- Between two nodes of the graph there are only nodes of the graph.
  rw [h.classOf_eq_iff] at hac ⊢
  rcases hac with rfl | ⟨ha, hc, hac⟩
  · exact .inl (by omega)
  · have hb : b < count := by omega
    have hsame := h.interval ⟨a, ha⟩ ⟨b, hb⟩ ⟨c, hc⟩ hab hbc hac
    exact .inr ⟨hb, ha, h.equivalence.symm (x := ⟨a, ha⟩) (y := ⟨b, hb⟩) hsame⟩

/-! ### Permutations -/

/-- Two functions with the same values, each equally often, differ by a permutation. -/
theorem exists_perm_of_perm_ofFn {α : Type} {n : Nat} {F G : Fin n → α}
    (h : (List.ofFn F).Perm (List.ofFn G)) : ∃ π : Equiv.Perm (Fin n), ∀ i, G (π i) = F i := by
  rw [List.ofFn_eq_map (f := G)] at h
  obtain ⟨images, hperm, hmap⟩ := exists_perm_map h.symm
  have hlength : images.length = n := by simpa using hperm.length_eq
  have hinjective : Function.Injective fun i : Fin n => images.get (i.cast hlength.symm) :=
    (List.nodup_iff_injective_get.mp (hperm.nodup_iff.mpr (List.nodup_finRange n))).comp
      (Fin.cast_injective hlength.symm)
  refine ⟨Equiv.ofBijective _ (Finite.injective_iff_bijective.mp hinjective), fun i => ?_⟩
  have hentry := List.getElem_of_eq hmap (i := i.val) (by simp [hlength])
  simpa using hentry

/-- **An injection that keeps classes extends to a permutation that keeps them:** one value
    after the other is exchanged with the right one. -/
theorem exists_perm_extending {ι α κ : Type} [Fintype ι] [DecidableEq α] {cls : α → κ}
    {F G : ι → α} (hF : Function.Injective F) (hG : Function.Injective G)
    (hcls : ∀ i, cls (F i) = cls (G i)) :
    ∃ τ : Equiv.Perm α, (∀ a, cls (τ a) = cls a) ∧ ∀ i, τ (F i) = G i := by
  classical
  -- By induction on the indices for which the values are right already.
  have hsome : ∀ s : Finset ι,
      ∃ τ : Equiv.Perm α, (∀ a, cls (τ a) = cls a) ∧ ∀ i ∈ s, τ (F i) = G i := by
    intro s
    induction s using Finset.induction_on with
    | empty => exact ⟨.refl α, fun _ => rfl, by simp⟩
    | insert i s hi ih =>
      obtain ⟨τ, hkeep, hτ⟩ := ih
      have hswap : cls (τ (F i)) = cls (G i) := (hkeep _).trans (hcls i)
      refine ⟨τ.trans (Equiv.swap (τ (F i)) (G i)), fun a => ?_, fun j hj => ?_⟩
      · rw [Equiv.trans_apply, class_swap hswap, hkeep]
      · rw [Equiv.trans_apply]
        rcases Finset.mem_insert.mp hj with rfl | hj
        · exact Equiv.swap_apply_left _ _
        · -- The values that are right already are not touched.
          have hne : j ≠ i := fun heq => hi (heq ▸ hj)
          have hneF : τ (F j) ≠ τ (F i) := fun heq => hne (hF (τ.injective heq))
          rw [Equiv.swap_apply_of_ne_of_ne hneF (hτ j hj ▸ fun heq => hne (hG heq)), hτ j hj]
  obtain ⟨τ, hkeep, hτ⟩ := hsome Finset.univ
  exact ⟨τ, hkeep, fun i => hτ i (Finset.mem_univ i)⟩

/-! ### Assignments as functions -/

variable {graph : Bipartite ε}

/-- Right nodes for the left nodes, as a list. -/
def listed {n m : Nat} (F : Fin n → Fin m) : List Nat := List.ofFn fun l => (F l).val

/-- The number at a place in the list of a function is what the function gives there. -/
theorem getElem?_listed {n m : Nat} (F : Fin n → Fin m) (l : Fin n) (r : Fin m) :
    (listed F)[l.val]? = some r.val ↔ F l = r := by
  simp [listed, Fin.ext_iff]

/-- Every assignment is the list of an injective function. -/
theorem IsAssignment.exists_listed (hrange : graph.InRange) {f : List Nat}
    (hf : IsAssignment graph.rows f) :
    ∃ F : Fin graph.left → Fin graph.right, Function.Injective F ∧ f = listed F := by
  have hlength : f.length = graph.left := hf.edges.length_eq.symm
  have hlt : ∀ l : Fin graph.left, f.get (l.cast hlength.symm) < graph.right := fun l =>
    hf.lt_right hrange (List.get_mem f _)
  refine ⟨fun l => ⟨_, hlt l⟩, fun l m heq => ?_, ?_⟩
  · have hsame := List.nodup_iff_injective_get.mp hf.nodup (Fin.mk.inj heq)
    exact Fin.cast_injective hlength.symm hsame
  · refine List.ext_getElem (by simp [listed, hlength]) fun l hl hl' => ?_
    simp [listed]

/-- The pairs of classes of an assignment, read off its function. -/
theorem classPairs_listed {κ ρ : Type} {leftClass : Nat → κ} {rightClass : Nat → ρ} (l : Nat)
    {n m : Nat} (F : Fin n → Fin m) :
    classPairs leftClass rightClass l (listed F) =
      List.ofFn fun i => (leftClass (l + i), rightClass (F i)) := by
  induction n generalizing l with
  | zero => simp [listed, classPairs]
  | succ n ih =>
    have hsucc : listed F = (F 0).val :: listed fun i => F i.succ := by
      rw [listed, List.ofFn_succ]
      rfl
    rw [hsucc, classPairs, ih, List.ofFn_succ]
    simp [Nat.add_comm, Nat.add_left_comm]

/-- **Exchanging nodes of one class** is permuting within the classes on both sides. -/
theorem exchanges_listed {sameLeft sameRight : Nat → Nat → Bool}
    {F G : Fin graph.left → Fin graph.right} :
    graph.Exchanges sameLeft sameRight (listed F) (listed G) ↔
      ∃ (π : Equiv.Perm (Fin graph.left)) (τ : Equiv.Perm (Fin graph.right)),
        (∀ l : Fin graph.left, sameLeft l (π l) = true) ∧
          (∀ r : Fin graph.right, sameRight r (τ r) = true) ∧ ∀ l, G (π l) = τ (F l) := by
  refine exists_congr fun π => exists_congr fun τ => and_congr_right fun _ =>
    and_congr_right fun _ => ?_
  simp only [getElem?_listed]
  constructor
  · exact fun h l => (h l (F l)).mp rfl
  · exact fun h l r => by rw [h l, τ.injective.eq_iff]

/-- **Assignments differ by exchanges just if they have the same pairs of classes.** -/
theorem exchanges_iff (hrange : graph.InRange) {sameLeft sameRight : Nat → Nat → Bool}
    (hleft : IntervalClasses graph.left sameLeft) (hright : IntervalClasses graph.right sameRight)
    {f g : List Nat} (hf : IsAssignment graph.rows f) (hg : IsAssignment graph.rows g) :
    graph.Exchanges sameLeft sameRight f g ↔
      (classPairs hleft.classOf hright.classOf 0 f).Perm
        (classPairs hleft.classOf hright.classOf 0 g) := by
  obtain ⟨F, hF, rfl⟩ := hf.exists_listed hrange
  obtain ⟨G, hG, rfl⟩ := hg.exists_listed hrange
  -- An exchange takes the pair of `l` to that of `π l`, which has the same classes.
  rw [exchanges_listed, classPairs_listed, classPairs_listed]
  simp only [Nat.zero_add]
  constructor
  · rintro ⟨π, τ, hπ, hτ, hpairs⟩
    have hsame : (fun l : Fin graph.left => (hleft.classOf l, hright.classOf (F l))) =
        (fun l : Fin graph.left => (hleft.classOf l, hright.classOf (G l))) ∘ π := by
      funext l
      refine Prod.ext ((hleft.classOf_eq_iff_same l (π l)).mpr (hπ l)) ?_
      show hright.classOf (F l) = hright.classOf (G (π l))
      rw [hpairs l]
      exact (hright.classOf_eq_iff_same _ _).mpr (hτ (F l))
    rw [hsame]
    exact π.ofFn_comp_perm _
  · intro hperm
    -- Left nodes are permuted so that the classes of their right nodes agree; then the right
    -- nodes only have to be moved within their classes.
    obtain ⟨π, hπ⟩ := exists_perm_of_perm_ofFn hperm
    let cls := fun r : Fin graph.right => hright.classOf r
    have hcls : ∀ l, cls (F l) = cls (G (π l)) := fun l =>
      (Prod.mk.inj (hπ l)).2.symm
    obtain ⟨τ, hkeep, hτ⟩ := exists_perm_extending hF (hG.comp π.injective) hcls
    refine ⟨π, τ, fun l => ?_, fun r => ?_, fun l => (hτ l).symm⟩
    · exact (hleft.classOf_eq_iff_same l (π l)).mp (Prod.mk.inj (hπ l)).1.symm
    · exact (hright.classOf_eq_iff_same r (τ r)).mp (hkeep r).symm

/-! ### What the search asks about -/

variable {sameLeft sameRight otherLeft otherRight : Nat → Nat → Bool}

/-- Whether a node may be assigned depends on neighboring nodes only. -/
theorem mayAssign_congr {assigned : List Nat} {r : Nat}
    (hleft : ∀ l, assigned.length = l + 1 → sameLeft l (l + 1) = otherLeft l (l + 1))
    (hright : ∀ s, r = s + 1 → sameRight s (s + 1) = otherRight s (s + 1)) :
    mayAssign sameLeft sameRight assigned r = mayAssign otherLeft otherRight assigned r := by
  rw [Bool.eq_iff_iff, mayAssign_iff, mayAssign_iff]
  refine and_congr_right fun _ => and_congr ?_ ?_
  · refine forall_congr' fun previous => imp_congr_right fun hlast => ?_
    obtain ⟨front, rfl⟩ := List.getLast?_eq_some_iff.mp hlast
    have hlength : (front ++ [previous]).length = front.length + 1 := by simp
    rw [hlength, Nat.add_sub_cancel, hleft front.length hlength]
  · exact forall_congr' fun s => imp_congr_right fun hs => by rw [hright s hs]

/-- The search lists the same assignments if the relations agree on neighbors in range. -/
theorem assignments_congr {right : Nat} {rows : List (List (Nat × ε))} {assigned : List Nat}
    (hrows : ∀ row ∈ rows, ∀ r ∈ row.map Prod.fst, r < right)
    (hleft : ∀ l, l + 1 < assigned.length + rows.length →
      sameLeft l (l + 1) = otherLeft l (l + 1))
    (hright : ∀ r, r + 1 < right → sameRight r (r + 1) = otherRight r (r + 1)) :
    assignments sameLeft sameRight rows assigned =
      assignments otherLeft otherRight rows assigned := by
  induction rows generalizing assigned with
  | nil => rfl
  | cons row rows ih =>
    rw [assignments, assignments]
    have hfilter : (row.map Prod.fst).filter (mayAssign sameLeft sameRight assigned) =
        (row.map Prod.fst).filter (mayAssign otherLeft otherRight assigned) := by
      refine List.filter_congr fun r hr => mayAssign_congr (fun l hl => hleft l ?_) fun s hs => ?_
      · rw [List.length_cons]
        omega
      · exact hright s (hs ▸ hrows row List.mem_cons_self r hr)
    rw [hfilter]
    refine List.flatMap_congr fun r _ => ih (fun next hnext => hrows next
      (List.mem_cons_of_mem row hnext)) fun l hl => hleft l ?_
    rw [List.length_append, List.length_singleton] at hl
    rw [List.length_cons]
    omega

/-- **The search only asks about neighbouring nodes of the graph.** -/
theorem completeMatchings_congr (hrange : graph.InRange)
    (hleft : ∀ l, l + 1 < graph.left → sameLeft l (l + 1) = otherLeft l (l + 1))
    (hright : ∀ r, r + 1 < graph.right → sameRight r (r + 1) = otherRight r (r + 1)) :
    graph.completeMatchings sameLeft sameRight = graph.completeMatchings otherLeft otherRight := by
  unfold completeMatchings
  refine if_congr Iff.rfl rfl (assignments_congr hrange (fun l hl => hleft l ?_) hright)
  rwa [List.length_nil, Nat.zero_add] at hl

end TermNet.Bipartite
