import TermNet.Proofs.Term.Canonical

namespace TermNet

/-!
# Canonical forms decide rearrangement

Terms may be written in many ways: the arguments of a commutative operation in any order, and
those of an associative one in any grouping.  The form that is built from the leaves up is the
same for all of them, and different for terms that are not rearrangements of one another.

* `Term.canonical` — a term built anew from its leaves up;
* `Term.Rearranged` — the congruence of reordering and regrouping arguments;
* `Term.rearranged_canonical` — every term is a rearrangement of its canonical form;
* `canonical_forms_decide_rearrangement` — rearrangements are the terms with one canonical
  form, and canonical forms are flat, sorted and built from their own arguments.
-/

namespace Term

/-! ### Canonical forms -/

mutual

/-- The term built anew from its leaves up. -/
def canonical : Term → Term
  | .node head args => build head (canonicalAll args)
  | t => t
termination_by structural t => t

/-- Each term of a list built anew. -/
def canonicalAll : List Term → List Term
  | [] => []
  | t :: ts => canonical t :: canonicalAll ts
termination_by structural ts => ts

end

/-- **Induction over terms,** with all arguments of an operation at once. -/
theorem inductionOn {motive : Term → Prop} (integer : ∀ value, motive (.integer value))
    (symbol : ∀ s, motive (.symbol s))
    (node : ∀ head args, (∀ t ∈ args, motive t) → motive (.node head args)) (t : Term) :
    motive t :=
  @Term.rec motive (fun ts => ∀ t ∈ ts, motive t) integer symbol node
    (fun _ ht => absurd ht List.not_mem_nil)
    (fun _ _ hfirst hrest t ht => (List.mem_cons.mp ht).elim (fun heq => heq ▸ hfirst) (hrest t)) t

/-- Each term of a list is made canonical. -/
theorem canonicalAll_eq (ts : List Term) : canonicalAll ts = ts.map canonical := by
  induction ts with
  | nil => rfl
  | cons t ts ih => rw [canonicalAll, ih, List.map_cons]

/-- The canonical form of an operation is built from those of its arguments. -/
theorem canonical_node (head : Head) (args : List Term) :
    (node head args).canonical = build head (args.map canonical) := by
  rw [canonical, canonicalAll_eq]

/-- **Canonical forms are canonical.** -/
theorem canonical_canonical (t : Term) : t.canonical.Canonical := by
  induction t using Term.inductionOn with
  | integer value => exact .integer value
  | symbol s => exact .symbol s
  | node head args ih =>
    rw [canonical_node]
    exact .build head (by simpa using ih)

/-! ### Parts of canonical terms -/

/-- The subterms of a list of terms are those of its members. -/
theorem mem_subtermsAll {ts : List Term} {s : Term} :
    s ∈ subtermsAll ts ↔ ∃ t ∈ ts, s ∈ t.subterms := by
  induction ts with
  | nil => simp [subtermsAll]
  | cons t ts ih => simp [subtermsAll, ih]

/-- Whatever occurs in a canonical term is canonical. -/
theorem Canonical.of_mem_subterms {t s : Term} (h : t.Canonical) (hs : s ∈ t.subterms) :
    s.Canonical := by
  induction t using Term.inductionOn with
  | integer value => exact List.mem_singleton.mp hs ▸ h
  | symbol a => exact List.mem_singleton.mp hs ▸ h
  | node head args ih =>
    rw [subterms, List.mem_cons, mem_subtermsAll] at hs
    rcases hs with rfl | ⟨t, ht, hs⟩
    · exact h
    · exact ih t ht (h.args t ht) hs

/-- Arguments that stand for themselves below an associative head are no operations of it. -/
theorem Flat.hasHead_eq_false {head : Head} {args : List Term} (h : Flat head args)
    (hassoc : head.isAssociative = true) : ∀ t ∈ args, t.hasHead head = false := by
  intro t ht
  cases t with
  | integer value => rfl
  | symbol s => rfl
  | node inner below =>
    simp only [hasHead, head?, Option.some.injEq, decide_eq_false_iff_not]
    rintro rfl
    have hself := h _ ht
    rw [spliced_node_self hassoc] at hself
    -- an operation cannot be its own argument
    have hsize := congrArg sizeOf hself
    simp only [List.cons.sizeOf_spec, List.nil.sizeOf_spec, node.sizeOf_spec] at hsize
    omega

/-- The arguments of a canonical commutative operation are sorted. -/
theorem Canonical.sorted {head : Head} {args : List Term} (h : (Term.node head args).Canonical)
    (hcomm : head.isCommutative = true) : args.Pairwise fun s t => s.le t = true := by
  rw [← h.arranged, arrange_of_commutative hcomm]
  exact sorted_sortBy_le args

/-! ### Rearrangements -/

/-- **Rearrangements of a term:** the congruence of putting the arguments of commutative heads in
    another order, and of putting the arguments of an operation in its place below the same
    associative head. -/
inductive Rearranged : Term → Term → Prop where
  | refl (t : Term) : Rearranged t t
  | symm {s t : Term} (h : Rearranged s t) : Rearranged t s
  | trans {s t u : Term} (h : Rearranged s t) (hmore : Rearranged t u) : Rearranged s u
  | argument (head : Head) (before after : List Term) {s t : Term} (h : Rearranged s t) :
    Rearranged (.node head (before ++ s :: after)) (.node head (before ++ t :: after))
  | permute {head : Head} (hcomm : head.isCommutative = true) {ss ts : List Term}
    (h : ss.Perm ts) : Rearranged (.node head ss) (.node head ts)
  | splice {head : Head} (hassoc : head.isAssociative = true) (before inner after : List Term) :
    Rearranged (.node head (before ++ .node head inner :: after))
      (.node head (before ++ inner ++ after))

namespace Rearranged

/-- Rearranging arguments one after the other; those in front are done. -/
theorem arguments (head : Head) {f : Term → Term} (before args : List Term)
    (h : ∀ t ∈ args, Rearranged t (f t)) :
    Rearranged (.node head (before ++ args)) (.node head (before ++ args.map f)) := by
  induction args generalizing before with
  | nil => exact .refl _
  | cons t ts ih =>
    have hrest := ih (before ++ [f t]) fun s hs => h s (List.mem_cons_of_mem t hs)
    rw [List.append_assoc, List.append_assoc] at hrest
    exact (argument head before ts (h t List.mem_cons_self)).trans hrest

/-- Splicing arguments one after the other. -/
theorem spliced (head : Head) (before args : List Term) :
    Rearranged (.node head (before ++ args)) (.node head (before ++ Term.splice head args)) := by
  induction args generalizing before with
  | nil => exact .refl _
  | cons t ts ih =>
    have hrest := ih (before ++ Term.spliced head t)
    rw [List.append_assoc before, List.append_assoc before, ← splice_cons] at hrest
    refine Rearranged.trans ?_ hrest
    cases t with
    | integer value => exact .refl _
    | symbol s => exact .refl _
    | node inner below =>
      rw [spliced_node]
      split
      · rename_i hsame
        rw [Bool.and_eq_true, decide_eq_true_eq] at hsame
        obtain ⟨hassoc, rfl⟩ := hsame
        rw [← List.append_assoc]
        exact .splice hassoc before below ts
      · exact .refl _

/-- Sorting the arguments of a commutative operation is a rearrangement. -/
theorem arranged (head : Head) (args : List Term) :
    Rearranged (.node head args) (.node head (Term.arrange head args)) := by
  cases hcomm : head.isCommutative with
  | true => exact .permute hcomm (arrange_perm head args).symm
  | false =>
    rw [arrange_of_not_commutative hcomm]
    exact .refl _

end Rearranged

/-- **Every term is a rearrangement of its canonical form.** -/
theorem rearranged_canonical (t : Term) : Rearranged t t.canonical := by
  induction t using Term.inductionOn with
  | integer value => exact .refl _
  | symbol s => exact .refl _
  | node head args ih =>
    rw [canonical_node, build]
    exact ((Rearranged.arguments head [] args ih).trans (.spliced head [] _)).trans
      (.arranged head _)

/-- **Rearranging keeps the canonical form.** -/
theorem Rearranged.canonical_eq {s t : Term} (h : Rearranged s t) : s.canonical = t.canonical := by
  induction h with
  | refl t => rfl
  | symm _ ih => exact ih.symm
  | trans _ _ ih ih' => exact ih.trans ih'
  | argument head before after _ ih =>
    rw [canonical_node, canonical_node, List.map_append, List.map_append, List.map_cons,
      List.map_cons, ih]
  | permute hcomm hperm =>
    rw [canonical_node, canonical_node]
    exact build_eq_of_perm hcomm ((hperm.map canonical).flatMap_right _)
  | @splice head hassoc before inner after =>
    rw [canonical_node, canonical_node, List.map_append, List.map_append, List.map_append,
      List.map_cons, canonical_node, List.append_assoc, ← List.singleton_append]
    exact build_append rfl (build_append (build_build hassoc _) rfl)

end Term

/-- **Canonical forms decide rearrangement:** two terms have the same canonical form if and only
    if one becomes the other by reordering commutative arguments and regrouping associative
    ones.  Operations in a canonical form are flat and sorted, and building them anew from
    their arguments changes nothing. -/
theorem canonical_forms_decide_rearrangement (s t : Term) :
    (s.canonical = t.canonical ↔ Term.Rearranged s t) ∧
      ∀ head args, Term.node head args ∈ t.canonical.subterms →
        (head.isAssociative = true → ∀ arg ∈ args, arg.hasHead head = false) ∧
        (head.isCommutative = true → args.Pairwise fun a b => a.le b = true) ∧
        Term.build head args = .node head args := by
  refine ⟨⟨fun h => ?_, Term.Rearranged.canonical_eq⟩, fun head args hmem => ?_⟩
  · exact s.rearranged_canonical.trans (h ▸ t.rearranged_canonical.symm)
  · have hcanonical := t.canonical_canonical.of_mem_subterms hmem
    exact ⟨hcanonical.flat.hasHead_eq_false, hcanonical.sorted, hcanonical.build_args⟩

/-- Sums with sums inside, in two orders: both are `2 + a + x`. -/
example :
    (Term.node .sum [.node .sum [.ofName "x", .integer 2], .ofName "a", .node .sum []]).canonical =
      (Term.node .sum [.ofName "a", .node .sum [.integer 2], .ofName "x"]).canonical := by
  decide +kernel

end TermNet
