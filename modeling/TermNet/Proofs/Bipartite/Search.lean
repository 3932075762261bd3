import Mathlib.Data.List.Nodup
import Mathlib.Data.List.Perm.Subperm
import TermNet.Proofs.Bipartite.CompleteMatchings

namespace TermNet.Bipartite

/-!
# The search for an augmenting path, and why it ends

The search calls itself for the owner of a right node that it would like to give away.
Nothing in its arguments gets smaller; it ends since every call has visited one more
right node.  `Tries` states the rules of the search without a limit on its depth, so
that a derivation is a search that ends; what a search does is proved from the rules.

* `Tries` — the rules of the search;
* `Tries.unique` — a search has one result;
* `Tries.inGraph` — it visits more and more nodes of the graph;
* `tries_augment` — a depth above the number of nodes that are left to visit is no limit.
-/

variable {ε : Type}

/-- The search after a visit to one more right node. -/
def Search.visit (s : Search) (r : Nat) : Search := { s with visited := r :: s.visited }

/-- The search with a right node given to a left one. -/
def Search.give (s : Search) (r l : Nat) : Search :=
  { s with owners := s.owners.set r (some l) }

/-- A search visits nodes of the graph, each of them once. -/
structure Search.InGraph (graph : Bipartite ε) (s : Search) : Prop where
  nodup : s.visited.Nodup
  visited_lt : ∀ r ∈ s.visited, r < graph.right
  length_owners : s.owners.length = graph.right

/-- **The rules of the search** for a right node of `l` among some nodes: what it finds out
    and leaves behind. -/
inductive Tries (graph : Bipartite ε) : (l : Nat) → List Nat → Search → Bool × Search → Prop
  /-- No node is left to try. -/
  | exhausted {l : Nat} {s : Search} : Tries graph l [] s (false, s)
  /-- A node that has been visited is passed over. -/
  | passed {l r : Nat} {rest : List Nat} {s : Search} {result : Bool × Search}
      (hr : r ∈ s.visited) (h : Tries graph l rest s result) :
      Tries graph l (r :: rest) s result
  /-- A free node is given to `l`. -/
  | free {l r : Nat} {rest : List Nat} {s : Search}
      (hr : r ∉ s.visited) (hfree : s.owner? r = none) :
      Tries graph l (r :: rest) s (true, (s.visit r).give r l)
  /-- A node is given to `l` once its owner has got another one. -/
  | moved {l r other : Nat} {rest : List Nat} {s after : Search}
      (hr : r ∉ s.visited) (hother : s.owner? r = some other)
      (h : Tries graph other (graph.neighbors other) (s.visit r) (true, after)) :
      Tries graph l (r :: rest) s (true, after.give r l)
  /-- A node stays with its owner, who has not got another one. -/
  | stuck {l r other : Nat} {rest : List Nat} {s after : Search} {result : Bool × Search}
      (hr : r ∉ s.visited) (hother : s.owner? r = some other)
      (hfail : Tries graph other (graph.neighbors other) (s.visit r) (false, after))
      (h : Tries graph l rest after result) :
      Tries graph l (r :: rest) s result

variable {graph : Bipartite ε} {retry : Nat → Search → Bool × Search}
variable {s after : Search} {l r : Nat} {nodes rest : List Nat} {result : Bool × Search}

/-! ### The rules -/

/-- **A search has one result.** -/
theorem Tries.unique {other : Bool × Search} (h : Tries graph l nodes s result)
    (h' : Tries graph l nodes s other) : result = other := by
  -- What is known of the first node leaves one rule, and whether its owner gets another one is
  -- settled by the search for it.
  induction h generalizing other with
  | exhausted =>
    cases h'
    rfl
  | passed hr _ ih =>
    cases h' with
    | passed _ h' => exact ih h'
    | free hr' _ => exact absurd hr hr'
    | moved hr' _ _ => exact absurd hr hr'
    | stuck hr' _ _ _ => exact absurd hr hr'
  | free hr hfree =>
    cases h' with
    | passed hr' _ => exact absurd hr' hr
    | free _ _ => rfl
    | moved _ hother _ => simp [hfree] at hother
    | stuck _ hother _ _ => simp [hfree] at hother
  | moved hr hother _ ih =>
    cases h' with
    | passed hr' _ => exact absurd hr' hr
    | free _ hfree => simp [hother] at hfree
    | moved _ hother' h' =>
      obtain rfl := Option.some.inj (hother.symm.trans hother')
      rw [(Prod.mk.inj (ih h')).2]
    | stuck _ hother' hfail' _ =>
      obtain rfl := Option.some.inj (hother.symm.trans hother')
      exact absurd (Prod.mk.inj (ih hfail')).1 (by decide)
  | stuck hr hother _ _ ihfail ih =>
    cases h' with
    | passed hr' _ => exact absurd hr' hr
    | free _ hfree => simp [hother] at hfree
    | moved _ hother' h' =>
      obtain rfl := Option.some.inj (hother.symm.trans hother')
      exact absurd (Prod.mk.inj (ihfail h')).1 (by decide)
    | stuck _ hother' hfail' h' =>
      obtain rfl := Option.some.inj (hother.symm.trans hother')
      obtain rfl := (Prod.mk.inj (ihfail hfail')).2
      exact ih h'

/-- Nobody has got another node when a search has found none. -/
theorem Tries.owners_eq (h : Tries graph l nodes s result) (hfail : result.1 = false) :
    result.2.owners = s.owners := by
  induction h with
  | exhausted => rfl
  | passed _ _ ih => exact ih hfail
  | free _ _ => simp at hfail
  | moved _ _ _ _ => simp at hfail
  | stuck _ _ _ _ ihfail ih => exact (ih hfail).trans (ihfail rfl)

/-! ### Visited nodes -/

/-- Visiting a node that has not been visited yet stays in the graph. -/
theorem Search.InGraph.visit (hs : s.InGraph graph) (hr : r ∉ s.visited)
    (hlt : r < graph.right) : (s.visit r).InGraph graph where
  nodup := List.nodup_cons.mpr ⟨hr, hs.nodup⟩
  visited_lt := by
    intro x hx
    rcases List.mem_cons.mp hx with rfl | hx
    · exact hlt
    · exact hs.visited_lt x hx
  length_owners := hs.length_owners

/-- Giving a node away stays in the graph. -/
theorem Search.InGraph.give (hs : s.InGraph graph) (r l : Nat) : (s.give r l).InGraph graph where
  nodup := hs.nodup
  visited_lt := hs.visited_lt
  length_owners := List.length_set.trans hs.length_owners

/-- No more nodes are visited than there are, since none is visited twice. -/
theorem Search.InGraph.length_visited_le (hs : s.InGraph graph) :
    s.visited.length ≤ graph.right := by
  have hsub : s.visited.Subperm (List.range graph.right) :=
    hs.nodup.subperm fun r hr => List.mem_range.mpr (hs.visited_lt r hr)
  simpa using hsub.length_le

/-- The neighbors of a left node are right nodes of the graph. -/
theorem neighbors_lt (hrange : graph.InRange) (l : Nat) :
    ∀ r ∈ graph.neighbors l, r < graph.right := by
  intro r hr
  cases hrow : graph.rows[l]? with
  | none => simp [neighbors, row, hrow] at hr
  | some row =>
    rw [neighbors_eq_of_getElem? hrow] at hr
    exact hrange row (List.mem_of_getElem? hrow) r hr

/-- **A search visits more and more nodes of the graph,** each of them once. -/
theorem Tries.inGraph (hrange : graph.InRange) (h : Tries graph l nodes s result)
    (hnodes : ∀ r ∈ nodes, r < graph.right) (hs : s.InGraph graph) :
    result.2.InGraph graph ∧ ∀ r ∈ s.visited, r ∈ result.2.visited := by
  induction h with
  | exhausted => exact ⟨hs, fun _ hr => hr⟩
  | passed _ _ ih => exact ih (fun x hx => hnodes x (List.mem_cons_of_mem _ hx)) hs
  | free hr _ =>
    have hvisit := hs.visit hr (hnodes _ List.mem_cons_self)
    exact ⟨hvisit.give _ _, fun _ hx => List.mem_cons_of_mem _ hx⟩
  | @moved l r other rest s after hr _ _ ih =>
    have hvisit := hs.visit hr (hnodes r List.mem_cons_self)
    obtain ⟨hafter, hmore⟩ := ih (neighbors_lt hrange other) hvisit
    exact ⟨hafter.give r l, fun x hx => hmore x (List.mem_cons_of_mem r hx)⟩
  | @stuck l r other rest s after result hr _ _ _ ihfail ih =>
    have hvisit := hs.visit hr (hnodes r List.mem_cons_self)
    obtain ⟨hafter, hmore⟩ := ihfail (neighbors_lt hrange other) hvisit
    obtain ⟨hresult, hrest⟩ := ih (fun x hx => hnodes x (List.mem_cons_of_mem r hx)) hafter
    exact ⟨hresult, fun x hx => hrest x (hmore x (List.mem_cons_of_mem r hx))⟩

/-! ### The search follows the rules -/

/-- A node that has been visited is passed over. -/
theorem tryNodes_visited (h : r ∈ s.visited) :
    tryNodes retry l (r :: rest) s = tryNodes retry l rest s := by
  have hcontains : s.visited.contains r = true := by simpa using h
  rw [tryNodes, if_pos hcontains]

/-- A node without an owner is taken. -/
theorem tryNodes_free (h : r ∉ s.visited) (hfree : s.owner? r = none) :
    tryNodes retry l (r :: rest) s = (true, (s.visit r).give r l) := by
  have hcontains : ¬ s.visited.contains r = true := by simpa using h
  have howner : (s.visit r).owner? r = none := hfree
  rw [tryNodes, if_neg hcontains]
  dsimp only
  rw [show Search.owner? { s with visited := r :: s.visited } r = none from howner]
  rfl

/-- A node with an owner is taken if the owner finds another one. -/
theorem tryNodes_taken {other : Nat} (h : r ∉ s.visited) (hother : s.owner? r = some other) :
    tryNodes retry l (r :: rest) s =
      if (retry other (s.visit r)).1 then (true, (retry other (s.visit r)).2.give r l)
      else tryNodes retry l rest (retry other (s.visit r)).2 := by
  have hcontains : ¬ s.visited.contains r = true := by simpa using h
  have howner : (s.visit r).owner? r = some other := hother
  rw [tryNodes, if_neg hcontains]
  dsimp only
  rw [show Search.owner? { s with visited := r :: s.visited } r = some other from howner]
  rfl

/-- Trying the nodes of a list follows the rules if trying those of other owners does.  The depth
    is enough since every step down visits one more node. -/
theorem tries_tryNodes (hrange : graph.InRange) {depth : Nat}
    (hretry : ∀ other s, s.InGraph graph → graph.right < depth + s.visited.length →
      Tries graph other (graph.neighbors other) s (retry other s))
    (hnodes : ∀ r ∈ nodes, r < graph.right) (hs : s.InGraph graph)
    (hdepth : graph.right < depth + 1 + s.visited.length) :
    Tries graph l nodes s (tryNodes retry l nodes s) := by
  induction nodes generalizing s with
  | nil => exact .exhausted
  | cons r rest ih =>
    have hr := hnodes r List.mem_cons_self
    have hrest := fun x hx => hnodes x (List.mem_cons_of_mem r hx)
    by_cases hvisited : r ∈ s.visited
    · rw [tryNodes_visited hvisited]
      exact .passed hvisited (ih hrest hs hdepth)
    · have hvisit : (s.visit r).InGraph graph := hs.visit hvisited hr
      cases hother : s.owner? r with
      | none =>
        rw [tryNodes_free hvisited hother]
        exact .free hvisited hother
      | some other =>
        rw [tryNodes_taken hvisited hother]
        have hlength : (s.visit r).visited.length = s.visited.length + 1 := rfl
        have h := hretry other (s.visit r) hvisit (by omega)
        generalize retry other (s.visit r) = result at h
        obtain ⟨_ | _, after⟩ := result
        · rw [if_neg (by simp)]
          -- The next node is tried with at least as many visits behind it.
          obtain ⟨hafter, hmore⟩ := h.inGraph hrange (neighbors_lt hrange other) hvisit
          have hle : (s.visit r).visited.length ≤ after.visited.length :=
            (hvisit.nodup.subperm hmore).length_le
          exact .stuck hvisited hother h (ih hrest hafter (by omega))
        · rw [if_pos rfl]
          exact .moved hvisited hother h

/-- **The search follows the rules to the end** if it may go deeper than there are nodes left
    to visit. -/
theorem tries_augment (hrange : graph.InRange) {length : Nat} (hs : s.InGraph graph)
    (hlength : graph.right < length + s.visited.length) :
    Tries graph l (graph.neighbors l) s (graph.augment length l s) := by
  induction length generalizing l s with
  | zero =>
    have hle := hs.length_visited_le
    omega
  | succ length ih =>
    rw [augment]
    exact tries_tryNodes hrange (fun other s hs hlt => ih hs hlt) (neighbors_lt hrange l) hs
      hlength

end TermNet.Bipartite
