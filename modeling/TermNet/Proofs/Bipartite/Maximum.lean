import Mathlib.Tactic.Choose
import TermNet.Proofs.Bipartite.Augment

namespace TermNet.Bipartite

/-!
# Maximum matchings

One search from each left node, with no second try for a node that has got nothing, gives
a maximum matching.  The nodes that failing searches have visited stay a closed set until
the end; and a matching has at most one edge for each owner, since an edge either ends in
the closed set, or comes from an owner itself.

* `IsMatching`, `covered` — matchings, and the left nodes that they cover;
* `Settled` — what the searches from the first left nodes leave behind;
* `settled_matchedOwners` — the invariant of the searches, for all left nodes;
* `Settled.length_covered_le` — no matching has more edges than there are owners;
* `isMatching_maximumMatching`, `countP_le_maximumMatchingSize` — a matching is found, and
  it is a maximum one.
-/

variable {ε : Type}

/-- A right node for some of the left nodes: each along an edge, all of them different. -/
structure IsMatching (graph : Bipartite ε) (matching : List (Option Nat)) : Prop where
  length : matching.length = graph.left
  edge : ∀ l r : Nat, matching[l]? = some (some r) → r ∈ graph.neighbors l
  apart : ∀ l m r : Nat, matching[l]? = some (some r) → matching[m]? = some (some r) → l = m

/-- The left nodes that a matching covers. -/
def covered (matching : List (Option Nat)) : List Nat :=
  (List.range matching.length).filter fun l => matching[l]?.join.isSome

/-- What the searches from the first `count` left nodes leave behind: owners along edges, and
    a closed set with all neighbours of those left nodes that have got nothing. -/
structure Settled (graph : Bipartite ε) (count : Nat) (owners : List (Option Nat)) : Prop where
  length : owners.length = graph.right
  nodup : (owned owners).Nodup
  lt : ∀ l ∈ owned owners, l < count
  onEdges : (Search.mk [] owners).OnEdges graph
  closed : ∃ closed : Set Nat, (Search.mk [] owners).Closed graph closed ∧
    ∀ l < count, l ∉ owned owners → ∀ r ∈ graph.neighbors l, r ∈ closed

variable {graph : Bipartite ε} {matching : List (Option Nat)} {owners : List (Option Nat)}
variable {l r count : Nat}

/-! ### Covered nodes -/

/-- A left node is covered if it is matched with some right node. -/
theorem mem_covered : l ∈ covered matching ↔ ∃ r, matching[l]? = some (some r) := by
  rw [covered, List.mem_filter, List.mem_range, Option.isSome_iff_exists]
  simp only [Option.join_eq_some_iff]
  constructor
  · exact fun h => h.2
  · rintro ⟨r, hr⟩
    exact ⟨(List.getElem?_eq_some_iff.mp hr).1, r, hr⟩

/-- Covered nodes are listed once. -/
theorem nodup_covered (matching : List (Option Nat)) : (covered matching).Nodup :=
  List.nodup_range.filter _

/-- The size of a matching is the number of nodes that it covers. -/
theorem length_covered (matching : List (Option Nat)) :
    (covered matching).length = matching.countP Option.isSome := by
  have hmap : (List.range matching.length).map (fun l => matching[l]?.join) = matching := by
    refine List.ext_getElem (by simp) fun l hl hl' => ?_
    simp [hl']
  conv_rhs => rw [← hmap, List.countP_map, List.countP_eq_length_filter]
  rfl

/-! ### The invariant of the searches -/

/-- At the beginning nothing is matched, and no left node has been looked at. -/
theorem settled_none (graph : Bipartite ε) :
    Settled graph 0 (List.replicate graph.right none) := by
  have hnone : owned (List.replicate graph.right none) = [] := by simp [owned]
  refine ⟨List.length_replicate, ?_, fun l hl => ?_, fun r l hl => ?_, ∅, ?_, ?_⟩
  · rw [hnone]
    exact List.nodup_nil
  · rw [hnone] at hl
    exact absurd hl List.not_mem_nil
  · have hmem := mem_owned_iff.mpr ⟨r, hl⟩
    rw [hnone] at hmem
    exact absurd hmem List.not_mem_nil
  · exact fun r hr => hr.elim
  · exact fun l hl => absurd hl (Nat.not_lt_zero l)

/-- **One more search keeps the invariant.**  If it succeeds, then the closed set stays as it
    is; if it fails, then the nodes that it has visited are added. -/
theorem Settled.augment (hrange : graph.InRange) (h : Settled graph count owners) :
    Settled graph (count + 1)
      (graph.augment (graph.right + 1) count ⟨[], owners⟩).2.owners := by
  obtain ⟨closed, hclosed, hunowned⟩ := h.closed
  have hs : (Search.mk [] owners).InGraph graph :=
    ⟨List.nodup_nil, fun r hr => by simp at hr, h.length⟩
  have htries : Tries graph count (graph.neighbors count) ⟨[], owners⟩
      (graph.augment (graph.right + 1) count ⟨[], owners⟩) :=
    tries_augment hrange hs (by rw [List.length_nil]; omega)
  have houtcome := htries.outcome hrange (neighbors_lt hrange count) hs
  have hedges := htries.onEdges (fun _ hr => hr) h.onEdges
  have hkeeps := htries.keeps_closed hclosed
  have hlength := (htries.inGraph hrange (neighbors_lt hrange count) hs).1.length_owners
  generalize graph.augment (graph.right + 1) count ⟨[], owners⟩ = result at *
  obtain ⟨_ | _, after⟩ := result
  · -- Nothing has been given away, and `count` is one more node that has got nothing.
    have hfail : Fails graph (graph.neighbors count) ⟨[], owners⟩ after := houtcome
    have hsame : after.owners = owners := hfail.owners
    have hvisited : (Search.mk [] owners).Closed graph (closed ∪ {r | r ∈ after.visited}) := by
      rintro r (hr | hr)
      · obtain ⟨l, hl, hneighbors⟩ := hclosed r hr
        exact ⟨l, hl, fun x hx => .inl (hneighbors x hx)⟩
      · rcases hfail.closed r hr with hr | ⟨l, hl, hneighbors⟩
        · exact absurd hr List.not_mem_nil
        · exact ⟨l, hl, fun x hx => .inr (hneighbors x hx)⟩
    show Settled graph (count + 1) after.owners
    rw [hsame]
    refine ⟨h.length, h.nodup, fun l hl => Nat.lt_succ_of_lt (h.lt l hl), h.onEdges, _, hvisited,
      fun l hl hfree r hr => ?_⟩
    rcases Nat.lt_succ_iff_lt_or_eq.mp hl with hl | rfl
    · exact .inl (hunowned l hl hfree r hr)
    · exact .inr (hfail.tried r hr)
  · -- The search has not touched the closed set, so that is as good as before.
    have hsucceed : Succeeds count ⟨[], owners⟩ after := houtcome
    have hperm : (owned after.owners).Perm (count :: owned owners) := hsucceed.owned
    refine ⟨hlength, ?_, fun l hl => ?_, hedges, closed, hclosed.congr hkeeps,
      fun l hl hfree => ?_⟩
    · refine hperm.nodup_iff.mpr (List.nodup_cons.mpr ⟨fun hmem => ?_, h.nodup⟩)
      exact Nat.lt_irrefl count (h.lt count hmem)
    · rcases List.mem_cons.mp (hperm.mem_iff.mp hl) with rfl | hl
      · exact Nat.lt_succ_self l
      · exact Nat.lt_succ_of_lt (h.lt l hl)
    · have hnot : l ∉ count :: owned owners := fun hmem => hfree (hperm.mem_iff.mpr hmem)
      rw [List.mem_cons, not_or] at hnot
      exact hunowned l (by omega) hnot.2

/-- **The searches from all left nodes.** -/
theorem settled_matchedOwners (hrange : graph.InRange) :
    Settled graph graph.left graph.matchedOwners := by
  have hsteps : ∀ count, Settled graph count ((List.range count).foldl
      (fun owners l => (graph.augment (graph.right + 1) l ⟨[], owners⟩).2.owners)
      (List.replicate graph.right none)) := by
    intro count
    induction count with
    | zero => exact settled_none graph
    | succ count ih =>
      rw [List.range_succ, List.foldl_append, List.foldl_cons, List.foldl_nil]
      exact ih.augment hrange
  exact hsteps graph.left

/-! ### No matching is larger -/

/-- **No matching covers more nodes than there are owners.**  An edge that ends in the closed
    set is charged to the owner of its right node; any other edge comes from an owner. -/
theorem Settled.length_covered_le (h : Settled graph graph.left owners)
    (hmatching : graph.IsMatching matching) :
    (covered matching).length ≤ (owned owners).length := by
  obtain ⟨closed, hclosed, hunowned⟩ := h.closed
  have hcharge : ∀ l, l ∈ covered matching → ∃ m ∈ owned owners, ∃ r,
      matching[l]? = some (some r) ∧
        (r ∈ closed ∧ (Search.mk [] owners).owner? r = some m ∨ r ∉ closed ∧ l = m) := by
    intro l hl
    obtain ⟨r, hr⟩ := mem_covered.mp hl
    by_cases hin : r ∈ closed
    · obtain ⟨m, hm, -⟩ := hclosed r hin
      exact ⟨m, mem_owned_iff.mpr ⟨r, hm⟩, r, hr, .inl ⟨hin, hm⟩⟩
    · refine ⟨l, ?_, r, hr, .inr ⟨hin, rfl⟩⟩
      by_contra hfree
      have hlt : l < graph.left := hmatching.length ▸ (List.getElem?_eq_some_iff.mp hr).1
      exact hin (hunowned l hlt hfree r (hmatching.edge l r hr))
  choose! charged howned node hnode hcases using hcharge
  -- The neighbours of an owner whose node is in the set belong to the set, too.
  have hinside : ∀ l ∈ covered matching, ∀ r ∈ closed,
      (Search.mk [] owners).owner? r = some l → node l ∈ closed := by
    intro l hl r hr howner
    obtain ⟨m, hm, hneighbors⟩ := hclosed r hr
    obtain rfl := Option.some.inj (howner.symm.trans hm)
    exact hneighbors _ (hmatching.edge l _ (hnode l hl))
  -- Two nodes inside have different owners, two nodes outside are charged to themselves, and
  -- the owner of a node inside does not have its own node outside.
  have hinjective : ∀ l ∈ covered matching, ∀ m ∈ covered matching, charged l = charged m →
      l = m := by
    intro l hl m hm heq
    rcases hcases l hl with ⟨hin, howner⟩ | ⟨hout, hsame⟩
    · rcases hcases m hm with ⟨-, howner'⟩ | ⟨hout', hsame'⟩
      · have hnodes : node l = node m :=
          owner?_injective (s := ⟨[], owners⟩) h.nodup (heq ▸ howner) howner'
        exact hmatching.apart l m (node l) (hnode l hl) (hnodes ▸ hnode m hm)
      · rw [heq, ← hsame'] at howner
        exact absurd (hinside m hm _ hin howner) hout'
    · rcases hcases m hm with ⟨hin', howner'⟩ | ⟨-, hsame'⟩
      · rw [← heq, ← hsame] at howner'
        exact absurd (hinside l hl _ hin' howner') hout
      · exact hsame.trans (heq.trans hsame'.symm)
  have hnodup : ((covered matching).map charged).Nodup :=
    (nodup_covered matching).map_on hinjective
  have hsub : ((covered matching).map charged).Subperm (owned owners) := by
    refine hnodup.subperm fun m hm => ?_
    obtain ⟨l, hl, rfl⟩ := List.mem_map.mp hm
    exact howned l hl
  have hle := hsub.length_le
  rwa [List.length_map] at hle

/-! ### The matching of the owners -/

/-- What a list of owners with their nodes writes into a matching, if no owner occurs twice. -/
theorem foldl_owners (pairs : List (Option Nat × Nat)) (matching : List (Option Nat))
    (hnodup : (owned (pairs.map Prod.fst)).Nodup) :
    let result := pairs.foldl
      (fun matching (owner, r) => match owner with
        | some l => matching.set l (some r)
        | none => matching) matching
    result.length = matching.length ∧ ∀ l < matching.length, ∀ r,
      result[l]? = some (some r) ↔ (some l, r) ∈ pairs ∨
        l ∉ owned (pairs.map Prod.fst) ∧ matching[l]? = some (some r) := by
  induction pairs generalizing matching with
  | nil => exact ⟨rfl, fun l _ r => by simp [owned]⟩
  | cons pair rest ih =>
    obtain ⟨_ | m, x⟩ := pair
    · obtain ⟨hlength, hall⟩ := ih matching hnodup
      refine ⟨hlength, fun l hl r => (hall l hl r).trans (or_congr_left ?_)⟩
      simp
    · have howned : owned (((some m, x) :: rest).map Prod.fst) =
          m :: owned (rest.map Prod.fst) := rfl
      rw [howned] at hnodup
      obtain ⟨hm, hrest⟩ := List.nodup_cons.mp hnodup
      obtain ⟨hlength, hall⟩ := ih (matching.set m (some x)) hrest
      refine ⟨hlength.trans List.length_set, fun l hl r => ?_⟩
      refine (hall l (by simpa using hl) r).trans ?_
      rw [howned, List.mem_cons, List.mem_cons, not_or]
      by_cases hlm : l = m
      · subst hlm
        -- The node is written here, and nothing behind it writes to the same place.
        have hnot : (some l, r) ∉ rest := fun hmem =>
          hm (List.mem_filterMap.mpr ⟨some l, List.mem_map_of_mem hmem, rfl⟩)
        rw [List.getElem?_set_self hl]
        simp [hm, hnot, eq_comm]
      · rw [List.getElem?_set_ne (Ne.symm hlm)]
        simp [hlm]

/-- **The maximum matching is read off the owners** at the end of the searches. -/
theorem maximumMatching_spec (hrange : graph.InRange) :
    graph.maximumMatching.length = graph.left ∧ ∀ l r,
      graph.maximumMatching[l]? = some (some r) ↔
        (Search.mk [] graph.matchedOwners).owner? r = some l := by
  have hsettled := settled_matchedOwners hrange
  have hfst : graph.matchedOwners.zipIdx.map Prod.fst = graph.matchedOwners :=
    List.zipIdx_map_fst _ _
  obtain ⟨hlength, hall⟩ := foldl_owners graph.matchedOwners.zipIdx
    (List.replicate graph.left none) (hfst.symm ▸ hsettled.nodup)
  rw [List.length_replicate] at hlength hall
  refine ⟨hlength, fun l r => ?_⟩
  -- The matching lists for each left node what it owns, which is one node at most.
  have hmem : (some l, r) ∈ graph.matchedOwners.zipIdx ↔
      (Search.mk [] graph.matchedOwners).owner? r = some l := by
    rw [List.mk_mem_zipIdx_iff_getElem?, owner?_eq_some_iff]
  by_cases hl : l < graph.left
  · refine (hall l hl r).trans ?_
    rw [hmem]
    simp [hl]
  · have hnone : graph.maximumMatching[l]? = none :=
      List.getElem?_eq_none (Nat.le_trans (Nat.le_of_eq hlength) (Nat.not_lt.mp hl))
    rw [hnone]
    refine ⟨fun h => by simp at h, fun h => ?_⟩
    exact absurd (hsettled.lt l (mem_owned_iff.mpr ⟨r, h⟩)) hl

/-- **A matching is found.** -/
theorem isMatching_maximumMatching (hrange : graph.InRange) :
    graph.IsMatching graph.maximumMatching := by
  have hsettled := settled_matchedOwners hrange
  obtain ⟨hlength, hspec⟩ := maximumMatching_spec hrange
  refine ⟨hlength, fun l r h => hsettled.onEdges r l ((hspec l r).mp h), fun l m r hl hm => ?_⟩
  exact Option.some.inj (((hspec l r).mp hl).symm.trans ((hspec m r).mp hm))

/-- The matching that is found covers the owners. -/
theorem covered_maximumMatching (hrange : graph.InRange) :
    (covered graph.maximumMatching).Perm (owned graph.matchedOwners) := by
  have hsettled := settled_matchedOwners hrange
  refine (List.perm_ext_iff_of_nodup (nodup_covered _) hsettled.nodup).mpr fun l => ?_
  rw [mem_covered, mem_owned_iff (s := ⟨[], graph.matchedOwners⟩)]
  exact exists_congr fun r => (maximumMatching_spec hrange).2 l r

/-- **No matching is larger than the one that is found.** -/
theorem countP_le_maximumMatchingSize (hrange : graph.InRange)
    (hmatching : graph.IsMatching matching) :
    matching.countP Option.isSome ≤ graph.maximumMatchingSize := by
  rw [maximumMatchingSize, ← length_covered, ← length_covered,
    (covered_maximumMatching hrange).length_eq]
  exact (settled_matchedOwners hrange).length_covered_le hmatching

/-! ### Assignments as matchings -/

/-- The right node that an assignment gives to a left node is one of its neighbours. -/
theorem IsAssignment.mem_neighbors {f : List Nat} (hf : IsAssignment graph.rows f)
    (hl : l < f.length) : f[l] ∈ graph.neighbors l := by
  have hlt : l < graph.rows.length := hf.edges.length_eq ▸ hl
  rw [neighbors_eq_of_getElem? (List.getElem?_eq_getElem hlt)]
  exact hf.edges.get hlt hl

/-- An assignment is a matching that covers all left nodes. -/
theorem IsAssignment.isMatching {f : List Nat} (hf : IsAssignment graph.rows f) :
    graph.IsMatching (f.map some) := by
  have hget : ∀ l r : Nat, (f.map some)[l]? = some (some r) ↔ f[l]? = some r := by
    intro l r
    rw [List.getElem?_map, Option.map_eq_some_iff]
    simp
  refine ⟨(List.length_map _).trans hf.edges.length_eq.symm, fun l r h => ?_,
    fun l m r hl hm => ?_⟩
  · obtain ⟨hl, rfl⟩ := List.getElem?_eq_some_iff.mp ((hget l r).mp h)
    exact hf.mem_neighbors hl
  · have hfl := (hget l r).mp hl
    refine (List.getElem?_inj (List.getElem?_eq_some_iff.mp hfl).1 hf.nodup).mp ?_
    rw [hfl, (hget m r).mp hm]

/-- **The maximum matching has an edge for each left node,** if there is an assignment. -/
theorem left_le_maximumMatchingSize (hrange : graph.InRange) {f : List Nat}
    (hf : IsAssignment graph.rows f) : graph.left ≤ graph.maximumMatchingSize := by
  have hle := countP_le_maximumMatchingSize hrange hf.isMatching
  have hall : (f.map some).countP Option.isSome = (f.map some).length :=
    List.countP_eq_length.mpr fun node hnode => by
      obtain ⟨r, -, rfl⟩ := List.mem_map.mp hnode
      rfl
  rwa [hall, hf.isMatching.length] at hle

end TermNet.Bipartite
