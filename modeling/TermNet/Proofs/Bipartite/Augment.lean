import TermNet.Proofs.Bipartite.Search

namespace TermNet.Bipartite

/-!
# Augmenting paths

A search from a left node either gives it a right node, and then all left nodes that
had one still have one; or it has visited a closed set of right nodes, whose owners
have no neighbours outside of it.  No later search gets into such a set and succeeds,
so its nodes stay with their owners.

* `Succeeds`, `Fails` — what a search leaves behind in the two cases;
* `Tries.outcome` — every search ends in one of them;
* `Search.Closed` — sets of right nodes that are left over by failing searches;
* `Tries.fails_inside`, `Tries.keeps_closed` — a search that gets into a closed set fails,
  and no search takes a node out of it;
* `Tries.onEdges` — right nodes are only given to their neighbours.
-/

variable {ε : Type}

/-- The left nodes that have a right node. -/
def owned (owners : List (Option Nat)) : List Nat := owners.filterMap id

/-- `l` has got a right node, and nobody has lost one. -/
structure Succeeds (l : Nat) (before after : Search) : Prop where
  owned : (owned after.owners).Perm (l :: owned before.owners)
  kept : ∀ r ∈ before.visited, after.owner? r = before.owner? r
  length_owners : after.owners.length = before.owners.length

/-- All nodes of `tried` are visited, and so are the neighbours of the owners of the
    nodes that have been visited meanwhile. -/
structure Fails (graph : Bipartite ε) (tried : List Nat) (before after : Search) : Prop where
  owners : after.owners = before.owners
  inGraph : after.InGraph graph
  visited : ∀ r ∈ before.visited, r ∈ after.visited
  tried : ∀ r ∈ tried, r ∈ after.visited
  closed : ∀ r ∈ after.visited, r ∈ before.visited ∨
    ∃ l, before.owner? r = some l ∧ ∀ s ∈ graph.neighbors l, s ∈ after.visited

/-- What a search for `l` that has tried some nodes leaves behind. -/
def Outcome (graph : Bipartite ε) (l : Nat) (tried : List Nat) (before : Search) :
    Bool × Search → Prop
  | (true, after) => Succeeds l before after
  | (false, after) => Fails graph tried before after

variable {graph : Bipartite ε} {s before after : Search} {l r : Nat} {nodes rest : List Nat}
variable {result : Bool × Search}

/-! ### Changing the owner of a node -/

/-- The owner of a node is what the list of owners has there. -/
theorem owner?_eq_some_iff {other : Nat} :
    s.owner? r = some other ↔ s.owners[r]? = some (some other) := by
  unfold Search.owner?
  rw [Option.join_eq_some_iff]

/-- Giving a node away changes the owner of no other node. -/
theorem owner?_give_of_ne {x : Nat} (h : x ≠ r) : (s.give r l).owner? x = s.owner? x := by
  simp only [Search.give, Search.owner?]
  rw [List.getElem?_set_ne (Ne.symm h)]

/-- The left nodes in two lists of owners, one behind the other. -/
theorem owned_append (owners others : List (Option Nat)) :
    owned (owners ++ others) = owned owners ++ owned others :=
  List.filterMap_append

/-- Setting an owner replaces the one that was there. -/
theorem owned_set (owners : List (Option Nat)) (hr : r < owners.length) :
    (owned (owners.set r (some l))).Perm (l :: owned (owners.eraseIdx r)) := by
  rw [List.set_eq_take_append_cons_drop, if_pos hr, List.eraseIdx_eq_take_drop_succ,
    owned_append, owned_append]
  exact List.perm_middle

/-- Without one entry the left nodes are the others. -/
theorem owned_eraseIdx (owners : List (Option Nat)) (hr : r < owners.length) :
    (owned owners).Perm (owners[r].toList ++ owned (owners.eraseIdx r)) := by
  conv_lhs => rw [← List.take_append_drop r owners, List.drop_eq_getElem_cons hr]
  rw [List.eraseIdx_eq_take_drop_succ, owned_append, owned_append]
  cases owners[r] with
  | none => exact .refl _
  | some other => exact List.perm_middle

/-- A free node is given away. -/
theorem succeeds_free (hr : r ∉ s.visited) (hlt : r < s.owners.length)
    (hfree : s.owner? r = none) : Succeeds l s ((s.visit r).give r l) := by
  have hnone : s.owners[r] = none := by
    rw [Search.owner?, List.getElem?_eq_getElem hlt] at hfree
    exact hfree
  refine ⟨(owned_set s.owners hlt).trans (.cons l ?_), fun x hx => ?_, List.length_set⟩
  · have hperm := owned_eraseIdx s.owners hlt
    rw [hnone] at hperm
    exact hperm.symm
  · exact owner?_give_of_ne (s := s.visit r) fun heq => hr (heq ▸ hx)

/-- A node is given away once its owner has got another one. -/
theorem succeeds_taken {other : Nat} (hr : r ∉ s.visited) (hother : s.owner? r = some other)
    (h : Succeeds other (s.visit r) after) : Succeeds l s (after.give r l) := by
  have howner : after.owner? r = some other := (h.kept r List.mem_cons_self).trans hother
  obtain ⟨hlt, hget⟩ := List.getElem?_eq_some_iff.mp (owner?_eq_some_iff.mp howner)
  refine ⟨?_, fun x hx => ?_, List.length_set.trans h.length_owners⟩
  · -- `other` counts twice in between, at `r` and at its new node.
    have herase := owned_eraseIdx after.owners hlt
    rw [hget] at herase
    have hrest : (owned (after.owners.eraseIdx r)).Perm (owned s.owners) :=
      (List.perm_cons other).mp (herase.symm.trans h.owned)
    exact (owned_set after.owners hlt).trans (hrest.cons l)
  · have hne : x ≠ r := fun heq => hr (heq ▸ hx)
    exact (owner?_give_of_ne hne).trans (h.kept x (List.mem_cons_of_mem r hx))

/-! ### One search -/

/-- A search that goes on after a failing one, whose start was a visit to `r`. -/
theorem Outcome.of_fails {other : Nat} (hother : s.owner? r = some other)
    (hfail : Fails graph (graph.neighbors other) (s.visit r) after) {result : Bool × Search}
    (h : Outcome graph l rest after result) : Outcome graph l (r :: rest) s result := by
  have hvisited : ∀ x ∈ s.visited, x ∈ after.visited := fun x hx =>
    hfail.visited x (List.mem_cons_of_mem r hx)
  have howner : ∀ x, after.owner? x = s.owner? x := fun x => by
    simp only [Search.owner?, hfail.owners, Search.visit]
  obtain ⟨_ | _, final⟩ := result
  · have h : Fails graph rest after final := h
    refine ⟨h.owners.trans hfail.owners, h.inGraph, fun x hx => h.visited x (hvisited x hx), ?_, ?_⟩
    · intro x hx
      rcases List.mem_cons.mp hx with rfl | hx
      · exact h.visited x (hfail.visited x List.mem_cons_self)
      · exact h.tried x hx
    · intro x hx
      rcases h.closed x hx with hx | ⟨m, hm, hneighbors⟩
      · rcases hfail.closed x hx with hx | ⟨m, hm, hneighbors⟩
        · rcases List.mem_cons.mp hx with rfl | hx
          -- The first node stays with its owner, all of whose nodes have been tried in vain.
          · exact .inr ⟨other, hother, fun y hy => h.visited y (hfail.tried y hy)⟩
          · exact .inl hx
        · exact .inr ⟨m, hm, fun y hy => h.visited y (hneighbors y hy)⟩
      · exact .inr ⟨m, howner x ▸ hm, hneighbors⟩
  · have h : Succeeds l after final := h
    have hsame : owned after.owners = owned s.owners := congrArg owned hfail.owners
    refine ⟨hsame ▸ h.owned, fun x hx => ?_, ?_⟩
    · exact (h.kept x (hvisited x hx)).trans (howner x)
    · exact h.length_owners.trans (congrArg List.length hfail.owners)

/-- **Every search succeeds or fails.** -/
theorem Tries.outcome (hrange : graph.InRange) (h : Tries graph l nodes s result)
    (hnodes : ∀ r ∈ nodes, r < graph.right) (hs : s.InGraph graph) :
    Outcome graph l nodes s result := by
  induction h with
  | exhausted => exact ⟨rfl, hs, fun _ h => h, fun _ h => by simp at h, fun _ h => .inl h⟩
  | @passed l r rest s result hr _ ih =>
    have h := ih (fun x hx => hnodes x (List.mem_cons_of_mem r hx)) hs
    obtain ⟨_ | _, final⟩ := result
    · have h : Fails graph rest s final := h
      refine ⟨h.owners, h.inGraph, h.visited, fun x hx => ?_, h.closed⟩
      rcases List.mem_cons.mp hx with rfl | hx
      · exact h.visited x hr
      · exact h.tried x hx
    · exact h
  | @free l r rest s hr hfree =>
    exact succeeds_free hr (hs.length_owners ▸ hnodes r List.mem_cons_self) hfree
  | @moved l r other rest s after hr hother _ ih =>
    have hvisit := hs.visit hr (hnodes r List.mem_cons_self)
    exact succeeds_taken hr hother (ih (neighbors_lt hrange other) hvisit)
  | @stuck l r other rest s after result hr hother _ _ ihfail ih =>
    have hvisit := hs.visit hr (hnodes r List.mem_cons_self)
    have hfail : Fails graph (graph.neighbors other) (s.visit r) after :=
      ihfail (neighbors_lt hrange other) hvisit
    exact (ih (fun x hx => hnodes x (List.mem_cons_of_mem r hx)) hfail.inGraph).of_fails hother
      hfail

/-! ### Closed sets of right nodes -/

/-- Every node of the set has an owner, whose neighbours all belong to the set. -/
def Search.Closed (graph : Bipartite ε) (s : Search) (closed : Set Nat) : Prop :=
  ∀ r ∈ closed, ∃ l, s.owner? r = some l ∧ ∀ x ∈ graph.neighbors l, x ∈ closed

/-- Whether a set of nodes is closed depends on the owners in it only. -/
theorem Search.Closed.congr {closed : Set Nat} (h : s.Closed graph closed)
    (hsame : ∀ r ∈ closed, after.owner? r = s.owner? r) : after.Closed graph closed := by
  intro r hr
  obtain ⟨l, hl, hneighbors⟩ := h r hr
  exact ⟨l, (hsame r hr).trans hl, hneighbors⟩

/-- **A search in a closed set fails:** whatever it visits is taken, and so are the nodes that
    it could be exchanged for. -/
theorem Tries.fails_inside {closed : Set Nat} (h : Tries graph l nodes s result)
    (hclosed : s.Closed graph closed) (hnodes : ∀ r ∈ nodes, r ∈ closed) : result.1 = false := by
  induction h with
  | exhausted => rfl
  | passed _ _ ih => exact ih hclosed fun x hx => hnodes x (List.mem_cons_of_mem _ hx)
  | free _ hfree =>
    obtain ⟨l, hl, -⟩ := hclosed _ (hnodes _ List.mem_cons_self)
    simp [hfree] at hl
  | moved _ hother _ ih =>
    obtain ⟨l, hl, hneighbors⟩ := hclosed _ (hnodes _ List.mem_cons_self)
    obtain rfl := Option.some.inj (hother.symm.trans hl)
    exact ih hclosed hneighbors
  | stuck _ _ hfail _ _ ih =>
    have hsame := hfail.owners_eq rfl
    refine ih (hclosed.congr fun r _ => ?_) fun x hx => hnodes x (List.mem_cons_of_mem _ hx)
    exact congrArg (fun owners => owners[r]?.join) hsame

/-- **No search takes a node out of a closed set.** -/
theorem Tries.keeps_closed {closed : Set Nat} (h : Tries graph l nodes s result)
    (hclosed : s.Closed graph closed) : ∀ r ∈ closed, result.2.owner? r = s.owner? r := by
  induction h with
  | exhausted => exact fun _ _ => rfl
  | passed _ _ ih => exact ih hclosed
  | @free l r rest s hr hfree =>
    intro x hx
    have hne : x ≠ r := by
      rintro rfl
      obtain ⟨m, hm, -⟩ := hclosed x hx
      simp [hfree] at hm
    exact owner?_give_of_ne (s := s.visit r) hne
  | @moved l r other rest s after hr hother h ih =>
    intro x hx
    have hne : x ≠ r := by
      -- The search for another node of the owner of `r` would stay inside.
      rintro rfl
      obtain ⟨m, hm, hneighbors⟩ := hclosed x hx
      obtain rfl := Option.some.inj (hother.symm.trans hm)
      exact Bool.noConfusion (h.fails_inside hclosed hneighbors)
    exact (owner?_give_of_ne hne).trans (ih hclosed x hx)
  | @stuck l r other rest s after result _ _ _ _ ihfail ih =>
    have hafter := ihfail hclosed
    exact fun x hx => (ih (hclosed.congr hafter) x hx).trans (hafter x hx)

/-! ### Edges -/

/-- Right nodes belong to their neighbours. -/
def Search.OnEdges (graph : Bipartite ε) (s : Search) : Prop :=
  ∀ r l, s.owner? r = some l → r ∈ graph.neighbors l

/-- Giving a node to a neighbor keeps all owners neighbors. -/
theorem Search.OnEdges.give (hs : s.OnEdges graph) (hr : r ∈ graph.neighbors l) :
    (s.give r l).OnEdges graph := by
  intro x m hm
  by_cases hx : x = r
  · subst hx
    rw [owner?_eq_some_iff, Search.give, List.getElem?_set] at hm
    simp at hm
    exact hm.2 ▸ hr
  · exact hs x m ((owner?_give_of_ne hx).symm.trans hm)

/-- **Right nodes are only given to their neighbours.** -/
theorem Tries.onEdges (h : Tries graph l nodes s result)
    (hnodes : ∀ r ∈ nodes, r ∈ graph.neighbors l) (hs : s.OnEdges graph) :
    result.2.OnEdges graph := by
  induction h with
  | exhausted => exact hs
  | passed _ _ ih => exact ih (fun x hx => hnodes x (List.mem_cons_of_mem _ hx)) hs
  | free _ _ => exact Search.OnEdges.give hs (hnodes _ List.mem_cons_self)
  | moved _ _ _ ih => exact (ih (fun _ hx => hx) hs).give (hnodes _ List.mem_cons_self)
  | stuck _ _ _ _ ihfail ih =>
    exact ih (fun x hx => hnodes x (List.mem_cons_of_mem _ hx)) (ihfail (fun _ hx => hx) hs)

/-! ### Owners -/

/-- Different right nodes have different owners. -/
theorem owner?_injective (hnodup : (owned s.owners).Nodup) {x y : Nat}
    (hx : s.owner? x = some l) (hy : s.owner? y = some l) : x = y := by
  obtain ⟨hxlt, hxget⟩ := List.getElem?_eq_some_iff.mp (owner?_eq_some_iff.mp hx)
  obtain ⟨hylt, hyget⟩ := List.getElem?_eq_some_iff.mp (owner?_eq_some_iff.mp hy)
  have hpairwise := List.pairwise_iff_getElem.mp (List.pairwise_filterMap.mp hnodup)
  rcases Nat.lt_trichotomy x y with hlt | heq | hlt
  · exact absurd rfl (hpairwise x y hxlt hylt hlt l hxget l hyget)
  · exact heq
  · exact absurd rfl (hpairwise y x hylt hxlt hlt l hyget l hxget)

/-- A left node is in the list of owners if it owns some right node. -/
theorem mem_owned_iff : l ∈ owned s.owners ↔ ∃ r, s.owner? r = some l := by
  simp only [owned, List.mem_filterMap, id_eq, exists_eq_right, owner?_eq_some_iff]
  exact List.mem_iff_getElem?

end TermNet.Bipartite
