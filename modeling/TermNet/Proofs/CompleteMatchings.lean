import TermNet.Proofs.Bipartite.CompleteMatchings
import TermNet.Proofs.Bipartite.Exchange
import TermNet.Proofs.Bipartite.Maximum
import TermNet.Proofs.Commutative.Pairing

namespace TermNet

/-!
# Maximum and complete matchings

The matcher of commutative arguments does not look for complete matchings where a maximum
matching leaves an operand without an argument.  It misses nothing: the matching that is
found is a maximum one, and it covers all left nodes just if there is a complete matching.

* `Bipartite.IsMatching.exists_isAssignment` — a matching that covers all left nodes is an
  assignment;
* `Bipartite.exists_isAssignment_iff` — there is an assignment just if the maximum matching
  covers all left nodes;
* `maximum_matching_is_maximum` — the whole statement.

Alike left nodes take increasing right nodes, and of alike right nodes the first free one
is taken.  Together, these two rules leave one matching of all those that differ only by
exchanging alike nodes.

* `Bipartite.AlikeOnEdges` — alike nodes have alike neighbours;
* `Bipartite.existsUnique_exchanges` — one listed matching for each assignment;
* `Bipartite.Exchanges.eq` — nothing is exchanged if nodes are only alike to themselves;
* `complete_matchings_list_each_orbit_once` — the whole statement.
-/

namespace Bipartite

variable {ε : Type} {graph : Bipartite ε}

/-- A matching that covers all left nodes is an assignment. -/
theorem IsMatching.exists_isAssignment {matching : List (Option Nat)}
    (h : graph.IsMatching matching) (hall : matching.countP Option.isSome = graph.left) :
    ∃ f, IsAssignment graph.rows f := by
  -- As many nodes are covered as there are, so the matching has a node at every place.
  have hsome : ∀ node ∈ matching, node.isSome = true :=
    List.countP_eq_length.mp (hall.trans h.length.symm)
  have hget : ∀ l (hl : l < matching.length), matching[l]? = some (some (matching[l].getD 0)) := by
    intro l hl
    obtain ⟨r, hr⟩ := Option.isSome_iff_exists.mp (hsome _ (List.getElem_mem hl))
    rw [List.getElem?_eq_getElem hl, hr, Option.getD_some]
  have hlength : graph.rows.length = (matching.map (·.getD 0)).length := by
    rw [List.length_map, h.length]
    rfl
  refine ⟨matching.map (·.getD 0), List.forall₂_iff_get.mpr ⟨hlength, fun l hl hl' => ?_⟩, ?_⟩
  · rw [List.length_map] at hl'
    have hedge := h.edge l _ (hget l hl')
    rw [neighbors_eq_of_getElem? (List.getElem?_eq_getElem hl)] at hedge
    simpa using hedge
  · rw [List.nodup_iff_getElem?_ne_getElem?]
    intro l m hlm hm heq
    rw [List.length_map] at hm
    rw [List.getElem?_map, List.getElem?_map, List.getElem?_eq_getElem (by omega),
      List.getElem?_eq_getElem hm, Option.map_some, Option.map_some, Option.some.injEq] at heq
    have hsame := h.apart l m _ (hget l (by omega)) (heq ▸ hget m hm)
    omega

/-- The size of the maximum matching tells whether there is an assignment. -/
theorem exists_isAssignment_iff (hrange : graph.InRange) :
    (∃ f, IsAssignment graph.rows f) ↔ graph.maximumMatchingSize = graph.left := by
  have hmatching := isMatching_maximumMatching hrange
  constructor
  · rintro ⟨f, hf⟩
    have hle : graph.maximumMatchingSize ≤ graph.maximumMatching.length := List.countP_le_length
    rw [hmatching.length] at hle
    exact Nat.le_antisymm hle (left_le_maximumMatchingSize hrange hf)
  · exact hmatching.exists_isAssignment

/-- If no two nodes are alike, then an assignment is listed as it is. -/
theorem completeMatchings_ne_nil_iff (hrange : graph.InRange) :
    graph.completeMatchings (fun _ _ => false) (fun _ _ => false) ≠ [] ↔
      ∃ f, IsAssignment graph.rows f := by
  constructor
  · intro h
    obtain ⟨f, hf⟩ := List.exists_mem_of_ne_nil _ h
    exact ⟨f, isAssignment_of_mem_completeMatchings hrange hf⟩
  · rintro ⟨f, hf⟩
    have hresp : Respects graph.rows (fun _ _ => false) (fun _ _ => false) :=
      ⟨fun _ _ _ h => absurd h (by decide), fun _ h => absurd h (by decide)⟩
    have hclass : ∀ l : Nat, (fun _ _ : Nat => false) l (l + 1) = true ↔ id l = id (l + 1) := by
      simp
    obtain ⟨g, hg, -⟩ := exists_admissible hresp hclass hclass hf
    exact List.ne_nil_of_mem ((mem_completeMatchings_iff hrange).mpr hg)

/-- Nothing is listed if the maximum matching leaves out a left node. -/
theorem completeMatchings_eq_nil (hrange : graph.InRange)
    (hfew : graph.maximumMatchingSize < graph.left) (sameLeft sameRight : Nat → Nat → Bool) :
    graph.completeMatchings sameLeft sameRight = [] := by
  refine List.eq_nil_iff_forall_not_mem.mpr fun f hf => ?_
  have hle := left_le_maximumMatchingSize hrange (isAssignment_of_mem_completeMatchings hrange hf)
  omega

end Bipartite

/-- **The matching that is found is a maximum one, and it is complete just if there is a
    complete one.**  It is a matching, and none is larger; its size is the number of left nodes
    just if there are complete matchings, so the matcher of commutative arguments drops none
    where it is too small; and the search for an augmenting path ends with one result, from
    any state and without a limit on its depth. -/
theorem maximum_matching_is_maximum {ε : Type} {graph : Bipartite ε} (hgraph : graph.Built) :
    graph.IsMatching graph.maximumMatching ∧
      (∀ matching, graph.IsMatching matching →
        matching.countP Option.isSome ≤ graph.maximumMatchingSize) ∧
      (graph.maximumMatchingSize = graph.left ↔
        graph.completeMatchings (fun _ _ => false) (fun _ _ => false) ≠ []) ∧
      (graph.maximumMatchingSize < graph.left →
        ∀ sameLeft sameRight, graph.completeMatchings sameLeft sameRight = []) ∧
      (∀ (pattern : CommutativePattern) (arguments : List Term)
        (found : Term → List (Nat × Substitution)),
        (pattern.slotGraph (arguments.map found)).maximumMatchingSize < pattern.operands.length →
          pattern.matchings arguments found = []) ∧
      ∀ (l : Nat) (s : Bipartite.Search), s.InGraph graph → ∀ result,
        graph.Tries l (graph.neighbors l) s result ↔
          result = graph.augment (graph.right + 1) l s := by
  have hrange := hgraph.inRange
  refine ⟨Bipartite.isMatching_maximumMatching hrange,
    fun matching h => Bipartite.countP_le_maximumMatchingSize hrange h, ?_,
    Bipartite.completeMatchings_eq_nil hrange, fun pattern arguments found hfew => ?_,
    fun l s hs result => ?_⟩
  · rw [Bipartite.completeMatchings_ne_nil_iff hrange, Bipartite.exists_isAssignment_iff hrange]
  · refine Bipartite.completeMatchings_eq_nil CommutativePattern.inRange_slotGraph ?_ _ _
    rwa [Bipartite.left, CommutativePattern.slotGraph_rows, List.length_map]
  -- The rules have at most one result, and the search with enough depth has one.
  · have hends : graph.Tries l (graph.neighbors l) s (graph.augment (graph.right + 1) l s) :=
      Bipartite.tries_augment hrange hs (by omega)
    constructor
    · exact fun h => h.unique hends
    · rintro rfl
      exact hends

/-- Two left nodes, of which the second one only has the neighbour that the first one takes. -/
def crossing : Bipartite Unit :=
  (((Bipartite.empty 2 2).addEdge 0 0 ()).addEdge 0 1 ()).addEdge 1 0 ()

/-- The first node gives up its neighbour for the other one. -/
theorem maximum_matching_is_maximum_for_crossing :
    crossing.Built ∧ crossing.maximumMatching = [some 1, some 0] ∧
      (∀ matching, crossing.IsMatching matching → matching.countP Option.isSome ≤ 2) ∧
      crossing.completeMatchings (fun _ _ => false) (fun _ _ => false) ≠ [] := by
  have hbuilt : crossing.Built :=
    .addEdge () (.addEdge () (.addEdge () (.empty 2 2) (by decide) (by decide)) (by decide)
      (by decide)) (by decide) (by decide)
  have hsize : crossing.maximumMatchingSize = 2 := by decide
  obtain ⟨-, hmaximum, hcomplete, -⟩ := maximum_matching_is_maximum hbuilt
  exact ⟨hbuilt, by decide, fun matching h => hsize ▸ hmaximum matching h, hcomplete.mp hsize⟩

/-! ### Complete matchings -/

namespace Bipartite

variable {ε : Type} {graph : Bipartite ε} {sameLeft sameRight : Nat → Nat → Bool}

/-- Whether two nodes have an edge only depends on the nodes that they are alike to. -/
def AlikeOnEdges (graph : Bipartite ε) (sameLeft sameRight : Nat → Nat → Bool) : Prop :=
  ∀ (l l' : Fin graph.left) (r r' : Fin graph.right), sameLeft l l' = true →
    sameRight r r' = true → (r.val ∈ graph.neighbors l ↔ r'.val ∈ graph.neighbors l')

/-- The search may be run with the restricted tests, which tell the classes of all numbers. -/
theorem respects_within (hrange : graph.InRange) (hleft : IntervalClasses graph.left sameLeft)
    (hright : IntervalClasses graph.right sameRight)
    (hedges : graph.AlikeOnEdges sameLeft sameRight) :
    Respects graph.rows (within graph.left sameLeft) (within graph.right sameRight) := by
  constructor
  · intro l row next halike hrow hnext r
    simp only [within, Bool.and_eq_true, decide_eq_true_eq, and_assoc] at halike
    obtain ⟨hl, hl', hsame⟩ := halike
    by_cases hr : r < graph.right
    · have h := hedges ⟨l, hl⟩ ⟨l + 1, hl'⟩ ⟨r, hr⟩ ⟨r, hr⟩ hsame (hright.equivalence.refl _)
      rwa [neighbors_eq_of_getElem? hrow, neighbors_eq_of_getElem? hnext] at h
    · -- A number that is no right node is no neighbour either.
      exact ⟨fun h => absurd (hrange row (List.mem_of_getElem? hrow) r h) hr,
        fun h => absurd (hrange next (List.mem_of_getElem? hnext) r h) hr⟩
  · intro r halike row hrow
    simp only [within, Bool.and_eq_true, decide_eq_true_eq, and_assoc] at halike
    obtain ⟨hr, hr', hsame⟩ := halike
    obtain ⟨l, hl⟩ := List.mem_iff_getElem?.mp hrow
    have hlt : l < graph.left := (List.getElem?_eq_some_iff.mp hl).1
    have h := hedges ⟨l, hlt⟩ ⟨l, hlt⟩ ⟨r, hr⟩ ⟨r + 1, hr'⟩ (hleft.equivalence.refl _) hsame
    rwa [neighbors_eq_of_getElem? hl] at h

/-- Which nodes out of range are the same makes no difference. -/
theorem completeMatchings_within (hrange : graph.InRange) :
    graph.completeMatchings sameLeft sameRight =
      graph.completeMatchings (within graph.left sameLeft) (within graph.right sameRight) := by
  refine completeMatchings_congr hrange (fun l hl => ?_) fun r hr => ?_
  · simp [within, hl, Nat.lt_of_succ_lt hl]
  · simp [within, hr, Nat.lt_of_succ_lt hr]

/-- **One listed matching for each assignment:** there is one with the same pairs of classes,
    and no two of them have the same pairs. -/
theorem existsUnique_exchanges (hrange : graph.InRange)
    (hleft : IntervalClasses graph.left sameLeft) (hright : IntervalClasses graph.right sameRight)
    (hedges : graph.AlikeOnEdges sameLeft sameRight) {f : List Nat}
    (hf : IsAssignment graph.rows f) :
    ∃! g, g ∈ graph.completeMatchings sameLeft sameRight ∧
      graph.Exchanges sameLeft sameRight f g := by
  rw [completeMatchings_within hrange]
  -- The search respects the classes, which is all that its two rules rely on.
  have hresp := respects_within hrange hleft hright hedges
  have hassignment : ∀ {g}, g ∈ graph.completeMatchings (within graph.left sameLeft)
      (within graph.right sameRight) → IsAssignment graph.rows g :=
    isAssignment_of_mem_completeMatchings hrange
  obtain ⟨g, hadmissible, hperm⟩ :=
    exists_admissible hresp hleft.within_iff hright.within_iff hf
  have hg := (mem_completeMatchings_iff hrange).mpr hadmissible
  refine ⟨g, ⟨hg, ?_⟩, ?_⟩
  · exact (exchanges_iff hrange hleft hright hf (hassignment hg)).mpr hperm.symm
  · rintro h ⟨hh, hexchanges⟩
    have hpairs := (exchanges_iff hrange hleft hright hf (hassignment hh)).mp hexchanges
    have hdown : Downward (within graph.right sameRight) [] := fun r hr => by simp at hr
    exact eq_of_perm_classPairs hleft.within_iff hright.within_iff hleft.contiguous
      hright.contiguous hdown ((mem_completeMatchings_iff hrange).mp hh) hadmissible
      (hpairs.symm.trans hperm.symm)

/-- Where nodes are only alike to themselves, nothing is exchanged. -/
theorem Exchanges.eq (hrange : graph.InRange)
    (hleft : ∀ l l' : Fin graph.left, sameLeft l l' = true → l = l')
    (hright : ∀ r r' : Fin graph.right, sameRight r r' = true → r = r') {f g : List Nat}
    (hf : IsAssignment graph.rows f) (hg : IsAssignment graph.rows g)
    (h : graph.Exchanges sameLeft sameRight f g) : f = g := by
  obtain ⟨F, -, rfl⟩ := hf.exists_listed hrange
  obtain ⟨G, -, rfl⟩ := hg.exists_listed hrange
  obtain ⟨π, τ, hπ, hτ, hpairs⟩ := exchanges_listed.mp h
  have hsame : F = G := by
    funext l
    have h := hpairs l
    rw [← hleft l (π l) (hπ l), ← hright (F l) (τ (F l)) (hτ (F l))] at h
    exact h.symm
  rw [hsame]

end Bipartite

/-- **The search lists one complete matching for each way to exchange alike nodes.**  Where
    alikeness is an equivalence of intervals that edges respect, the matchings that are listed
    are assignments, none is listed twice, and exactly one of them arises from each assignment
    by exchanging alike nodes.  If nodes are only alike to themselves, then every assignment is
    listed once. -/
theorem complete_matchings_list_each_orbit_once {ε : Type} {graph : Bipartite ε}
    (hgraph : graph.Built) {sameLeft sameRight : Nat → Nat → Bool}
    (hleft : Bipartite.IntervalClasses graph.left sameLeft)
    (hright : Bipartite.IntervalClasses graph.right sameRight)
    (hedges : graph.AlikeOnEdges sameLeft sameRight) :
    (graph.completeMatchings sameLeft sameRight).Nodup ∧
      (∀ f ∈ graph.completeMatchings sameLeft sameRight,
        Bipartite.IsAssignment graph.rows f) ∧
      (∀ f, Bipartite.IsAssignment graph.rows f →
        ∃! g, g ∈ graph.completeMatchings sameLeft sameRight ∧
          graph.Exchanges sameLeft sameRight f g) ∧
      ((∀ l l' : Fin graph.left, sameLeft l l' = true → l = l') →
        (∀ r r' : Fin graph.right, sameRight r r' = true → r = r') →
          ∀ f, Bipartite.IsAssignment graph.rows f →
            (graph.completeMatchings sameLeft sameRight).count f = 1) := by
  have hrange := hgraph.inRange
  have hnodup : (graph.completeMatchings sameLeft sameRight).Nodup :=
    Bipartite.nodup_completeMatchings hgraph.nodup
  have hassignment : ∀ f ∈ graph.completeMatchings sameLeft sameRight,
      Bipartite.IsAssignment graph.rows f := fun f =>
    Bipartite.isAssignment_of_mem_completeMatchings hrange
  have hunique := fun f (hf : Bipartite.IsAssignment graph.rows f) =>
    Bipartite.existsUnique_exchanges hrange hleft hright hedges hf
  refine ⟨hnodup, hassignment, hunique, fun hleft' hright' f hf => ?_⟩
  obtain ⟨g, ⟨hg, hexchanges⟩, -⟩ := hunique f hf
  rw [hexchanges.eq hrange hleft' hright' hf (hassignment g hg)]
  exact List.count_eq_one_of_mem hnodup hg

/-- Two left nodes with edges to three right nodes. -/
def allEdges : Bipartite Unit :=
  [(0, 0), (0, 1), (0, 2), (1, 0), (1, 1), (1, 2)].foldl (fun graph (l, r) => graph.addEdge l r ())
    (.empty 2 3)

/-- Whether two numbers have the same half; `0` and `1` do. -/
def sameHalf (a b : Nat) : Bool := a / 2 = b / 2

/-- Where both left nodes are alike, and the first two right nodes are, two matchings are
    listed: with both of the alike right nodes, and with one of them. -/
theorem complete_matchings_list_each_orbit_once_for_all_edges :
    allEdges.Built ∧ Bipartite.IntervalClasses 2 (fun _ _ => true) ∧
      Bipartite.IntervalClasses 3 sameHalf ∧ allEdges.AlikeOnEdges (fun _ _ => true) sameHalf ∧
      allEdges.completeMatchings (fun _ _ => true) sameHalf = [[0, 1], [0, 2]] ∧
      ∃! g, g ∈ allEdges.completeMatchings (fun _ _ => true) sameHalf ∧
        allEdges.Exchanges (fun _ _ => true) sameHalf [2, 1] g := by
  have hbuilt : allEdges.Built :=
    (((((Bipartite.Built.empty 2 3).addEdge () (by decide) (by decide)).addEdge () (by decide)
      (by decide)).addEdge () (by decide) (by decide)).addEdge () (by decide) (by decide)).addEdge
        () (by decide) (by decide) |>.addEdge () (by decide) (by decide)
  have hleft : Bipartite.IntervalClasses 2 (fun _ _ => true) :=
    ⟨⟨fun _ => rfl, fun _ => rfl, fun _ _ => rfl⟩, fun _ _ _ _ _ _ => rfl⟩
  have hright : Bipartite.IntervalClasses 3 sameHalf := by
    refine ⟨⟨fun a => ?_, fun {a b} => ?_, fun {a b c} => ?_⟩, ?_⟩
    · exact decide_eq_true rfl
    · revert a b
      decide
    · revert a b c
      decide
    · decide
  have hedges : allEdges.AlikeOnEdges (fun _ _ => true) sameHalf := by
    unfold Bipartite.AlikeOnEdges
    decide
  have hassignment : Bipartite.IsAssignment allEdges.rows [2, 1] :=
    ⟨.cons (by decide) (.cons (by decide) .nil), by decide⟩
  obtain ⟨-, -, hunique, -⟩ := complete_matchings_list_each_orbit_once hbuilt hleft hright hedges
  exact ⟨hbuilt, hleft, hright, hedges, by decide, hunique _ hassignment⟩

end TermNet
