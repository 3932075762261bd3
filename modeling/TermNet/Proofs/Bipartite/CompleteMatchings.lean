import Mathlib.Data.List.Nodup
import Mathlib.Data.List.Perm.Subperm
import Mathlib.Logic.Equiv.Basic
import TermNet.Proofs.Bipartite.Admissible

namespace TermNet.Bipartite

/-!
# Complete matchings, one for each way to pair classes

The search for complete matchings finds a matching for every pairing of classes that
some assignment has.  An assignment that the search does not list is made smaller by
exchanging two neighbouring alike nodes, which keeps its pairs, until it is listed;
`weight` says in which sense it gets smaller.

* `exchange_left`, `exchange_right` — exchanging alike nodes;
* `exists_admissible` — every assignment has an admissible one with its pairs;
* `mem_completeMatchings_iff`, `nodup_completeMatchings` — the same for graphs.

Every graph starts without edges, and edges are added between nodes that it has.  So all
edges lead to right nodes of the graph, and the rows list them in increasing order, each
right node once.

* `Built` — the graphs that are made in this way;
* `mem_insertEdge`, `insertEdge_ascending` — what an added edge does to its row;
* `Built.inRange`, `Built.ascending` — the invariants of the rows.
-/

section Classes

variable {ε : Type} {κ ρ : Type}
variable {sameLeft sameRight : Nat → Nat → Bool} {leftClass : Nat → κ} {rightClass : Nat → ρ}

/-! ### A choice for each pairing -/

/-- The pairs of an assignment in two parts. -/
theorem classPairs_append (l : Nat) (f g : List Nat) :
    classPairs leftClass rightClass l (f ++ g) =
      classPairs leftClass rightClass l f ++ classPairs leftClass rightClass (l + f.length) g := by
  induction f generalizing l with
  | nil => rfl
  | cons r f ih =>
    rw [List.cons_append, classPairs, ih, classPairs, List.cons_append, List.length_cons,
      Nat.add_right_comm, Nat.add_assoc]

/-- How far an assignment is from one that prefers small nodes, early ones first. -/
def weight : List Nat → Nat
  | [] => 0
  | r :: rest => r * (rest.length + 1) + weight rest

/-- A common beginning does not change which assignment weighs less. -/
theorem weight_append_lt {f g : List Nat} (u : List Nat) (hlen : f.length = g.length)
    (h : weight f < weight g) : weight (u ++ f) < weight (u ++ g) := by
  induction u with
  | nil => exact h
  | cons r u ih =>
    have hsame : (u ++ f).length = (u ++ g).length := by
      rw [List.length_append, List.length_append, hlen]
    rw [List.cons_append, List.cons_append, weight, weight, hsame]
    omega

/-- Putting the smaller of two neighbours first makes an assignment smaller. -/
theorem weight_swap {x y : Nat} (h : x < y) (v : List Nat) :
    weight (x :: y :: v) < weight (y :: x :: v) := by
  have hx : x * (v.length + 1 + 1) = x * (v.length + 1) + x := Nat.mul_succ _ _
  have hy : y * (v.length + 1 + 1) = y * (v.length + 1) + y := Nat.mul_succ _ _
  simp only [weight, List.length_cons]
  omega

/-- Exchanging a node with the one before it adds little, if the node is not used. -/
theorem weight_map_swap_le {s : Nat} {v : List Nat} (hnodup : v.Nodup) (hs : s + 1 ∉ v) :
    weight (v.map (Equiv.swap s (s + 1))) ≤ weight v + v.length := by
  induction v with
  | nil => exact Nat.le_refl _
  | cons r v ih =>
    rw [List.nodup_cons] at hnodup
    rw [List.mem_cons, not_or] at hs
    rw [List.map_cons, weight, weight, List.length_map, List.length_cons]
    by_cases hr : r = s
    · -- The node before `s + 1` occurs here, and nothing changes behind it.
      have hrest : v.map (Equiv.swap s (s + 1)) = v := by
        refine (List.map_congr_left fun x hx => ?_).trans (List.map_id v)
        refine Equiv.swap_apply_of_ne_of_ne ?_ ?_
        · exact fun heq => hnodup.1 (by rw [hr, ← heq]; exact hx)
        · exact fun heq => hs.2 (heq ▸ hx)
      have hmul : (s + 1) * (v.length + 1) = s * (v.length + 1) + (v.length + 1) :=
        Nat.succ_mul _ _
      rw [hrest, hr, Equiv.swap_apply_left]
      omega
    · have hkeep : Equiv.swap s (s + 1) r = r :=
        Equiv.swap_apply_of_ne_of_ne hr fun heq => hs.1 heq.symm
      have hle := ih hnodup.2 hs.2
      rw [hkeep]
      omega

/-- Giving the first slot the lower one of two neighbouring nodes weighs less. -/
theorem weight_lower {s : Nat} {v : List Nat} (hnodup : v.Nodup) (hs : s + 1 ∉ v) :
    weight (s :: v.map (Equiv.swap s (s + 1))) < weight ((s + 1) :: v) := by
  have hle := weight_map_swap_le hnodup hs
  have hmul : (s + 1) * (v.length + 1) = s * (v.length + 1) + (v.length + 1) :=
    Nat.succ_mul _ _
  rw [weight, weight, List.length_map]
  omega

/-- Where an assignment is not admissible: a node is smaller than that of an alike left
    node before it, or an alike node before it is free. -/
theorem exists_violation {rows : List (List (Nat × ε))} {assigned f : List Nat}
    (hedges : List.Forall₂ (fun row r => r ∈ row.map Prod.fst) rows f)
    (hnodup : (assigned ++ f).Nodup) (h : ¬ Admissible sameLeft sameRight rows assigned f) :
    ∃ u r v, f = u ++ r :: v ∧
      ((∃ pre y, assigned ++ u = pre ++ [y] ∧ sameLeft pre.length (pre.length + 1) = true ∧ r < y) ∨
        ∃ s, r = s + 1 ∧ s ∉ assigned ++ u ∧ sameRight s (s + 1) = true) := by
  induction hedges generalizing assigned with
  | nil => exact absurd trivial h
  | @cons row r rows f hrow hedges ih =>
    have hr : r ∉ assigned := fun hmem =>
      (List.nodup_append.mp hnodup).2.2 r hmem r List.mem_cons_self rfl
    -- The first choice that may not be made shows what is wrong.
    by_cases hmay : mayAssign sameLeft sameRight assigned r = true
    · have hrest : ¬ Admissible sameLeft sameRight rows (assigned ++ [r]) f :=
        fun hadm => h ⟨hrow, hmay, hadm⟩
      obtain ⟨u, x, v, rfl, hx⟩ := ih (by simpa using hnodup) hrest
      refine ⟨r :: u, x, v, rfl, ?_⟩
      simpa using hx
    · refine ⟨[], r, f, rfl, ?_⟩
      rw [mayAssign_iff, not_and_or, not_and_or] at hmay
      rcases hmay with hmay | hmay | hmay
      · exact absurd hr hmay
      -- It is smaller than the choice of the left node before it.
      · left
        push Not at hmay
        obtain ⟨y, hlast, halike, hle⟩ := hmay
        obtain ⟨pre, rfl⟩ := List.getLast?_eq_some_iff.mp hlast
        refine ⟨pre, y, by simp, by simpa using halike, ?_⟩
        have hne : y ≠ r := fun heq => hr (by simp [heq])
        omega
      -- A smaller alike right node is still free.
      · right
        push Not at hmay
        obtain ⟨s, hs, hfree, halike⟩ := hmay
        exact ⟨s, hs, by simpa using hfree, by simpa using halike⟩

/-- Alike nodes have the same neighbours. -/
structure Respects (rows : List (List (Nat × ε))) (sameLeft sameRight : Nat → Nat → Bool) :
    Prop where
  left : ∀ l row next, sameLeft l (l + 1) = true → rows[l]? = some row →
    rows[l + 1]? = some next → ∀ r, r ∈ row.map Prod.fst ↔ r ∈ next.map Prod.fst
  right : ∀ s, sameRight s (s + 1) = true → ∀ row ∈ rows,
    (s ∈ row.map Prod.fst ↔ s + 1 ∈ row.map Prod.fst)

/-- The rows of the two parts of an assignment. -/
theorem exists_rows_of_append {α β : Type} {R : α → β → Prop} {rows : List α} {u v : List β}
    (h : List.Forall₂ R rows (u ++ v)) :
    ∃ rows₁ rows₂, rows = rows₁ ++ rows₂ ∧ List.Forall₂ R rows₁ u ∧ List.Forall₂ R rows₂ v := by
  induction u generalizing rows with
  | nil => exact ⟨[], rows, rfl, .nil, h⟩
  | cons r u ih =>
    rw [List.cons_append, List.forall₂_cons_right_iff] at h
    obtain ⟨row, rows, hrow, hrest, rfl⟩ := h
    obtain ⟨rows₁, rows₂, rfl, h₁, h₂⟩ := ih hrest
    exact ⟨row :: rows₁, rows₂, rfl, .cons hrow h₁, h₂⟩

/-- A permutation of the images comes from one of the elements. -/
theorem exists_perm_map {α β : Type} {g : α → β} {xs : List α} {ys : List β}
    (h : (xs.map g).Perm ys) : ∃ zs : List α, zs.Perm xs ∧ zs.map g = ys := by
  induction ys generalizing xs with
  | nil => exact ⟨[], by rw [List.map_eq_nil_iff.mp h.eq_nil], rfl⟩
  | cons y ys ih =>
    obtain ⟨x, hx, rfl⟩ := List.mem_map.mp (h.mem_iff.mpr List.mem_cons_self)
    obtain ⟨before, after, rfl⟩ := List.append_of_mem hx
    have hfront : (before ++ x :: after).Perm (x :: (before ++ after)) := List.perm_middle
    obtain ⟨zs, hperm, hmap⟩ := ih ((List.perm_cons (g x)).mp ((hfront.map g).symm.trans h))
    exact ⟨x :: zs, (hperm.cons x).trans hfront.symm, congrArg (g x :: ·) hmap⟩

/-- Pairs that start with the images of `xs`, in some order, come from pairs that start
    with `xs`, in its order. -/
theorem exists_pairs_of_perm {α β γ : Type} {g : α → β} {xs : List α} {pairs : List (β × γ)}
    (h : (pairs.map Prod.fst).Perm (xs.map g)) :
    ∃ more : List (α × γ), more.map Prod.fst = xs ∧ (more.map (Prod.map g id)).Perm pairs := by
  obtain ⟨ordered, hordered, hmap⟩ := exists_perm_map h
  have hlength : xs.length = (ordered.map Prod.snd).length := by
    rw [List.length_map, ← List.length_map g, ← hmap, List.length_map]
  have hzip : (xs.zip (ordered.map Prod.snd)).map (Prod.map g id) = ordered := by
    rw [← List.zip_map_left, ← hmap]
    exact (List.zip_of_prod rfl rfl).symm
  refine ⟨xs.zip (ordered.map Prod.snd), List.map_fst_zip (Nat.le_of_eq hlength), ?_⟩
  rw [hzip]
  exact hordered

/-- Exchanging the nodes of two alike left nodes. -/
theorem exchange_left {rows : List (List (Nat × ε))} (hresp : Respects rows sameLeft sameRight)
    (hleft : ∀ l, sameLeft l (l + 1) = true ↔ leftClass l = leftClass (l + 1))
    {pre v : List Nat} {x y : Nat} (hf : IsAssignment rows (pre ++ y :: x :: v))
    (halike : sameLeft pre.length (pre.length + 1) = true) :
    IsAssignment rows (pre ++ x :: y :: v) ∧
      (classPairs leftClass rightClass 0 (pre ++ x :: y :: v)).Perm
        (classPairs leftClass rightClass 0 (pre ++ y :: x :: v)) := by
  have hperm : (pre ++ x :: y :: v).Perm (pre ++ y :: x :: v) :=
    (List.Perm.swap y x v).append_left pre
  refine ⟨⟨?_, hperm.nodup_iff.mpr hf.nodup⟩, ?_⟩
  · obtain ⟨rows₁, rows₂, rfl, h₁, h₂⟩ := exists_rows_of_append hf.edges
    obtain ⟨row, others, hrow, hothers, rfl⟩ := List.forall₂_cons_right_iff.mp h₂
    obtain ⟨next, rest, hnext, hrest, rfl⟩ := List.forall₂_cons_right_iff.mp hothers
    have hlen : rows₁.length = pre.length := h₁.length_eq
    -- Edges respect the classes, so each of the two nodes may have the other's edge.
    have hsame := hresp.left pre.length row next halike (by simp [← hlen]) (by simp [← hlen])
    exact List.rel_append h₁ (.cons ((hsame x).mpr hnext) (.cons ((hsame y).mp hrow) hrest))
  · have hcls : leftClass pre.length = leftClass (pre.length + 1) := (hleft _).mp halike
    rw [classPairs_append, classPairs_append]
    refine List.Perm.append_left _ ?_
    simp only [classPairs, Nat.zero_add, ← hcls]
    exact .swap _ _ _

/-- Exchanging two right nodes that the same rows have. -/
theorem edges_map_swap {rows : List (List (Nat × ε))} {f : List Nat} {s : Nat}
    (hedges : List.Forall₂ (fun row r => r ∈ row.map Prod.fst) rows f)
    (hsame : ∀ row ∈ rows, (s ∈ row.map Prod.fst ↔ s + 1 ∈ row.map Prod.fst)) :
    List.Forall₂ (fun row r => r ∈ row.map Prod.fst) rows (f.map (Equiv.swap s (s + 1))) := by
  induction hedges with
  | nil => exact .nil
  | @cons row r rows f hedge _ ih =>
    refine .cons ?_ (ih fun row hrow => hsame row (List.mem_cons_of_mem _ hrow))
    have hrow := hsame row List.mem_cons_self
    rcases eq_or_ne r s with rfl | hs
    · rw [Equiv.swap_apply_left]
      exact hrow.mp hedge
    · rcases eq_or_ne r (s + 1) with rfl | hs'
      · rw [Equiv.swap_apply_right]
        exact hrow.mpr hedge
      · rw [Equiv.swap_apply_of_ne_of_ne hs hs']
        exact hedge

/-- Exchanging two nodes of one class keeps all classes. -/
theorem class_swap {α : Type} [DecidableEq α] {cls : α → κ} {a b : α} (h : cls a = cls b)
    (c : α) : cls (Equiv.swap a b c) = cls c := by
  rcases eq_or_ne c a with rfl | ha
  · rw [Equiv.swap_apply_left, h]
  · rcases eq_or_ne c b with rfl | hb
    · rw [Equiv.swap_apply_right, h]
    · rw [Equiv.swap_apply_of_ne_of_ne ha hb]

/-- Swapping two nodes of one class keeps the pairs of classes. -/
theorem classPairs_map_swap {s : Nat} (hcls : rightClass s = rightClass (s + 1)) (l : Nat)
    (f : List Nat) :
    classPairs leftClass rightClass l (f.map (Equiv.swap s (s + 1))) =
      classPairs leftClass rightClass l f := by
  induction f generalizing l with
  | nil => rfl
  | cons r f ih => rw [List.map_cons, classPairs, classPairs, ih, class_swap hcls]

/-- Exchanging a right node with the alike one before it, throughout an assignment. -/
theorem exchange_right {rows : List (List (Nat × ε))} (hresp : Respects rows sameLeft sameRight)
    {f : List Nat} {s : Nat} (hf : IsAssignment rows f) (halike : sameRight s (s + 1) = true) :
    IsAssignment rows (f.map (Equiv.swap s (s + 1))) :=
  ⟨edges_map_swap hf.edges (hresp.right s halike), hf.nodup.map (Equiv.injective _)⟩

/-- An assignment that is not admissible can be made smaller without changing its pairs. -/
theorem exists_smaller {rows : List (List (Nat × ε))} (hresp : Respects rows sameLeft sameRight)
    (hleft : ∀ l, sameLeft l (l + 1) = true ↔ leftClass l = leftClass (l + 1))
    (hright : ∀ r, sameRight r (r + 1) = true ↔ rightClass r = rightClass (r + 1))
    {f : List Nat} (hf : IsAssignment rows f)
    (h : ¬ Admissible sameLeft sameRight rows [] f) :
    ∃ g, IsAssignment rows g ∧ weight g < weight f ∧
      (classPairs leftClass rightClass 0 g).Perm (classPairs leftClass rightClass 0 f) := by
  obtain ⟨u, r, v, rfl, hviolation⟩ := exists_violation hf.edges (by simpa using hf.nodup) h
  rw [List.nil_append] at hviolation
  rcases hviolation with ⟨pre, y, rfl, halike, hlt⟩ | ⟨s, rfl, hfree, halike⟩
  · rw [List.append_assoc, List.singleton_append] at hf ⊢
    obtain ⟨hg, hperm⟩ := exchange_left hresp hleft hf halike
    exact ⟨_, hg, weight_append_lt pre (by simp) (weight_swap hlt v), hperm⟩
  · refine ⟨_, exchange_right hresp hf halike, ?_, ?_⟩
    rotate_left
    · rw [classPairs_map_swap ((hright s).mp halike)]
    obtain ⟨-, hnodup, hdisjoint⟩ := List.nodup_append.mp hf.nodup
    rw [List.nodup_cons] at hnodup
    -- Before the violation neither of the two nodes occurs.
    have hkeep : u.map (Equiv.swap s (s + 1)) = u := by
      refine (List.map_congr_left fun x hx => ?_).trans (List.map_id u)
      refine Equiv.swap_apply_of_ne_of_ne ?_ ?_
      · exact fun heq => hfree (heq ▸ hx)
      · exact hdisjoint x hx _ List.mem_cons_self
    rw [List.map_append, hkeep, List.map_cons, Equiv.swap_apply_right]
    exact weight_append_lt u (by simp) (weight_lower hnodup.2 hnodup.1)

/-- **A choice for each pairing:** every assignment has an admissible one with its
    pairs. -/
theorem exists_admissible {rows : List (List (Nat × ε))}
    (hresp : Respects rows sameLeft sameRight)
    (hleft : ∀ l, sameLeft l (l + 1) = true ↔ leftClass l = leftClass (l + 1))
    (hright : ∀ r, sameRight r (r + 1) = true ↔ rightClass r = rightClass (r + 1))
    {f : List Nat} (hf : IsAssignment rows f) :
    ∃ g, Admissible sameLeft sameRight rows [] g ∧
      (classPairs leftClass rightClass 0 g).Perm (classPairs leftClass rightClass 0 f) := by
  induction hw : weight f using Nat.strongRecOn generalizing f with
  | _ w ih =>
    by_cases h : Admissible sameLeft sameRight rows [] f
    · exact ⟨f, h, .refl _⟩
    · obtain ⟨g, hg, hlt, hperm⟩ := exists_smaller hresp hleft hright hf h
      obtain ⟨a, ha, hag⟩ := ih (weight g) (hw ▸ hlt) hg rfl
      exact ⟨a, ha, hag.trans hperm⟩

/-! ### Complete matchings of a graph -/

/-- Every edge leads to a right node of the graph. -/
def InRange (graph : Bipartite ε) : Prop :=
  ∀ row ∈ graph.rows, ∀ r ∈ row.map Prod.fst, r < graph.right

/-- Every assigned node is one of some row. -/
theorem exists_row_of_mem {α β : Type} {R : α → β → Prop} {rows : List α} {f : List β}
    (h : List.Forall₂ R rows f) {r : β} (hr : r ∈ f) : ∃ row ∈ rows, R row r := by
  induction h with
  | nil => simp at hr
  | @cons row x rows f hrow _ ih =>
    rcases List.mem_cons.mp hr with rfl | hr
    · exact ⟨row, List.mem_cons_self, hrow⟩
    · obtain ⟨next, hnext, hedge⟩ := ih hr
      exact ⟨next, List.mem_cons_of_mem _ hnext, hedge⟩

/-- The neighbours of a node stand in its row. -/
theorem neighbors_eq_of_getElem? {graph : Bipartite ε} {l : Nat} {row : List (Nat × ε)}
    (h : graph.rows[l]? = some row) : graph.neighbors l = row.map Prod.fst := by
  rw [neighbors, Bipartite.row, h, Option.getD_some]

/-- An assignment leads to right nodes of the graph. -/
theorem IsAssignment.lt_right {graph : Bipartite ε} (hrange : graph.InRange) {f : List Nat}
    (hf : IsAssignment graph.rows f) {r : Nat} (hr : r ∈ f) : r < graph.right := by
  obtain ⟨row, hrow, hedge⟩ := exists_row_of_mem hf.edges hr
  exact hrange row hrow r hedge

/-- An assignment needs as many right nodes as there are left ones. -/
theorem IsAssignment.left_le_right {graph : Bipartite ε} (hrange : graph.InRange) {f : List Nat}
    (hf : IsAssignment graph.rows f) : graph.left ≤ graph.right := by
  have hsub : f.Subperm (List.range graph.right) :=
    hf.nodup.subperm fun r hr => List.mem_range.mpr (hf.lt_right hrange hr)
  have hlen := hsub.length_le
  rw [List.length_range, ← hf.edges.length_eq] at hlen
  exact hlen

/-- **The complete matchings of a graph** are the admissible ones. -/
theorem mem_completeMatchings_iff {graph : Bipartite ε} (hrange : graph.InRange) {f : List Nat} :
    f ∈ graph.completeMatchings sameLeft sameRight ↔
      Admissible sameLeft sameRight graph.rows [] f := by
  unfold completeMatchings
  constructor
  · intro h
    split at h
    · simp at h
    · obtain ⟨rest, rfl, hrest⟩ := mem_assignments_iff.mp h
      exact hrest
  · intro h
    have hf := h.isAssignment .nil
    have hle := IsAssignment.left_le_right hrange ⟨hf.1, by simpa using hf.2⟩
    rw [if_neg (by omega)]
    exact mem_assignments_iff.mpr ⟨f, rfl, h⟩

/-- Complete matchings are assignments. -/
theorem isAssignment_of_mem_completeMatchings {graph : Bipartite ε} (hrange : graph.InRange)
    {f : List Nat} (h : f ∈ graph.completeMatchings sameLeft sameRight) :
    IsAssignment graph.rows f := by
  obtain ⟨hedges, hnodup⟩ := ((mem_completeMatchings_iff hrange).mp h).isAssignment .nil
  exact ⟨hedges, by simpa using hnodup⟩

/-- No complete matching is listed twice. -/
theorem nodup_completeMatchings {graph : Bipartite ε}
    (hrows : ∀ row ∈ graph.rows, (row.map Prod.fst).Nodup) :
    (graph.completeMatchings sameLeft sameRight).Nodup := by
  unfold completeMatchings
  split
  · exact .nil
  · exact nodup_assignments hrows []

end Classes

/-! ### Graphs made by adding edges -/

variable {ε : Type}

/-- The graphs that arise from a graph without edges by adding edges between its nodes. -/
inductive Built : Bipartite ε → Prop
  | empty (left right : Nat) : Built (.empty left right)
  | addEdge {graph : Bipartite ε} {l r : Nat} (value : ε) (built : Built graph)
      (hl : l < graph.left) (hr : r < graph.right) : Built (graph.addEdge l r value)

variable {graph : Bipartite ε} {row : List (Nat × ε)} {l r : Nat}

/-- One more edge adds its node to the row. -/
theorem mem_insertEdge (node : Nat) (value : ε) :
    r ∈ (insertEdge node value row).map Prod.fst ↔ r = node ∨ r ∈ row.map Prod.fst := by
  induction row with
  | nil => simp [insertEdge]
  | cons first rest ih =>
    obtain ⟨other, old⟩ := first
    unfold insertEdge
    split
    · simp
    · split
      · rename_i heq
        simp [heq]
      · rw [List.map_cons, List.mem_cons, ih, List.map_cons, List.mem_cons]
        exact or_left_comm

/-- One more edge keeps the row in increasing order. -/
theorem insertEdge_ascending (node : Nat) (value : ε)
    (h : (row.map Prod.fst).Pairwise (· < ·)) :
    ((insertEdge node value row).map Prod.fst).Pairwise (· < ·) := by
  induction row with
  | nil => simp [insertEdge]
  | cons first rest ih =>
    obtain ⟨other, old⟩ := first
    obtain ⟨hfirst, hrest⟩ := List.pairwise_cons.mp h
    unfold insertEdge
    split
    · rename_i hlt
      refine List.pairwise_cons.mpr ⟨fun r hr => ?_, h⟩
      rcases List.mem_cons.mp hr with rfl | hr
      · exact hlt
      · exact Nat.lt_trans hlt (hfirst r hr)
    · split
      · rename_i heq
        exact heq ▸ h
      · refine List.pairwise_cons.mpr ⟨fun r hr => ?_, ih hrest⟩
        rcases (mem_insertEdge node value).mp hr with rfl | hr
        · omega
        · exact hfirst r hr

/-- The rows of a graph with one more edge are old ones, or an old one with that edge. -/
theorem mem_rows_addEdge {value : ε} (h : row ∈ (graph.addEdge l r value).rows) :
    row ∈ graph.rows ∨ ∃ old ∈ graph.rows, row = insertEdge r value old := by
  obtain ⟨m, hm⟩ := List.mem_iff_getElem?.mp h
  rw [addEdge, List.getElem?_modify] at hm
  obtain ⟨old, hold, rfl⟩ := Option.map_eq_some_iff.mp hm
  split
  · exact .inr ⟨old, List.mem_of_getElem? hold, rfl⟩
  · exact .inl (List.mem_of_getElem? hold)

/-- Edges lead to right nodes of the graph. -/
theorem Built.inRange (h : graph.Built) : graph.InRange := by
  induction h with
  | empty left right =>
    intro row hrow r hr
    rw [List.eq_of_mem_replicate hrow] at hr
    simp at hr
  | addEdge value _ _ hr ih =>
    intro row hrow x hx
    rcases mem_rows_addEdge hrow with hrow | ⟨old, hold, rfl⟩
    · exact ih row hrow x hx
    · rcases (mem_insertEdge _ value).mp hx with rfl | hx
      · exact hr
      · exact ih old hold x hx

/-- Edges are listed by increasing right node. -/
theorem Built.ascending (h : graph.Built) :
    ∀ row ∈ graph.rows, (row.map Prod.fst).Pairwise (· < ·) := by
  induction h with
  | empty left right =>
    intro row hrow
    rw [List.eq_of_mem_replicate hrow]
    exact .nil
  | addEdge value _ _ _ ih =>
    intro row hrow
    rcases mem_rows_addEdge hrow with hrow | ⟨old, hold, rfl⟩
    · exact ih row hrow
    · exact insertEdge_ascending _ value (ih old hold)

/-- No right node is listed twice for a left node. -/
theorem Built.nodup (h : graph.Built) : ∀ row ∈ graph.rows, (row.map Prod.fst).Nodup :=
  fun row hrow => (h.ascending row hrow).imp Nat.ne_of_lt

end TermNet.Bipartite
