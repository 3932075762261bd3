import TermNet.Proofs.Pattern.Alike

namespace TermNet.PatternTerm

/-!
# When alike operands are equal

The arguments of commutative operations are ordered by their texts.  So trees that differ in
the order of such arguments only become equal once they are built, unless different
arguments have the same text.

* `Arranged` — trees with their commutative arguments in order;
* `arranged_mapVariables` — building a tree puts them in order;
* `Arranged.eq_of_alike` — alike trees in order are equal if texts tell subtrees apart;
* `Arranged.settled` — so are alike operands.
-/

/-! ### Order -/

/-- The commutative arguments of the whole tree stand in order. -/
inductive Arranged : PatternTerm → Prop
  | atom (t : Term) : Arranged (.atom t)
  | wildcard (w : Wildcard) : Arranged (.wildcard w)
  | node {head : Head} {args : List PatternTerm} (hargs : ∀ p ∈ args, Arranged p)
    (hordered : head.isCommutative = true → args.Pairwise fun p q => p.le q = true) :
    Arranged (.node head args)

/-- The order of trees is transitive. -/
theorem le_trans (p q r : PatternTerm) (h : p.le q = true) (h' : q.le r = true) :
    p.le r = true := by
  simp only [le, Bool.or_eq_true, Bool.and_eq_true, decide_eq_true_eq] at *
  rcases h with h | ⟨h, htext⟩ <;> rcases h' with h' | ⟨h', htext'⟩
  · exact .inl (h.trans h')
  · exact .inl (h' ▸ h)
  · exact .inl (h ▸ h')
  · exact .inr ⟨h.trans h', Std.TransCmp.isLE_trans htext htext'⟩

/-- Any two trees are in order, one way or the other. -/
theorem le_total (p q : PatternTerm) : p.le q = true ∨ q.le p = true := by
  simp only [le, Bool.or_eq_true, Bool.and_eq_true, decide_eq_true_eq]
  rcases Nat.lt_trichotomy p.operandClass q.operandClass with h | h | h
  · exact .inl (.inl h)
  · have htexts : (compare p.text q.text).isLE = true ∨ (compare q.text p.text).isLE = true := by
      rw [Std.OrientedOrd.eq_swap (a := q.text)]
      cases compare p.text q.text <;> decide
    exact htexts.imp (fun ht => .inr ⟨h, ht⟩) fun ht => .inr ⟨h.symm, ht⟩
  · exact .inr (.inl h)

/-- Only trees with the same text may precede one another. -/
theorem text_eq_of_le {p q : PatternTerm} (h : p.le q = true) (h' : q.le p = true) :
    p.text = q.text := by
  simp only [le, Bool.or_eq_true, Bool.and_eq_true, decide_eq_true_eq] at *
  rcases h with h | ⟨hclass, htext⟩
  · rcases h' with h' | ⟨h', -⟩ <;> omega
  · rcases h' with h' | ⟨-, htext'⟩
    · omega
    · exact Std.LawfulEqCmp.eq_of_compare (Std.OrientedCmp.isLE_antisymm htext htext')

/-- Whatever an arranged tree contributes to the arguments of an operation is arranged. -/
theorem Arranged.of_mem_spliced {head : Head} {p q : PatternTerm} (h : Arranged p)
    (hq : q ∈ p.spliced head) : Arranged q := by
  cases h with
  | atom t => exact List.mem_singleton.mp hq ▸ .atom t
  | wildcard w => exact List.mem_singleton.mp hq ▸ .wildcard w
  | node hargs hordered =>
    rw [spliced] at hq
    split at hq
    · exact hargs q hq
    · exact List.mem_singleton.mp hq ▸ .node hargs hordered

/-- An operation that is built from arranged trees is arranged. -/
theorem Arranged.build (head : Head) {args : List PatternTerm} (h : ∀ p ∈ args, Arranged p) :
    Arranged (build head args) := by
  have hspliced : ∀ p ∈ args.flatMap (spliced head), Arranged p := by
    intro p hp
    obtain ⟨q, hq, hp⟩ := List.mem_flatMap.mp hp
    exact (h q hq).of_mem_spliced hp
  rw [PatternTerm.build]
  split
  · exact .node (fun p hp => hspliced p ((sortBy_perm _ _).mem_iff.mp hp))
      fun _ => sortBy_pairwise le_trans le_total _
  · rename_i hcomm
    exact .node hspliced fun h => absurd h hcomm

/-- **Building a tree** puts the commutative arguments in order. -/
theorem arranged_mapVariables (rename : String → String) (p : PatternTerm) :
    Arranged (p.mapVariables rename) := by
  induction p using inductionOn with
  | atom t => exact .atom t
  | wildcard w => exact .wildcard _
  | node head args ih =>
    rw [mapVariables, mapVariablesAll_eq]
    refine .build head fun q hq => ?_
    obtain ⟨p, hp, rfl⟩ := List.mem_map.mp hq
    exact ih p hp

/-! ### Subtrees -/

mutual

/-- The tree and everything below it. -/
def subtrees : PatternTerm → List PatternTerm
  | .atom t => [.atom t]
  | .wildcard w => [.wildcard w]
  | .node head args => .node head args :: subtreesAll args
termination_by structural p => p

/-- The subtrees of all trees of a list. -/
def subtreesAll : List PatternTerm → List PatternTerm
  | [] => []
  | p :: ps => subtrees p ++ subtreesAll ps
termination_by structural ps => ps

end

/-- The subtrees of a list of trees include those of its members. -/
theorem mem_subtreesAll {args : List PatternTerm} {p q : PatternTerm} (hp : p ∈ args)
    (hq : q ∈ p.subtrees) : q ∈ subtreesAll args := by
  induction args with
  | nil => simp at hp
  | cons first rest ih =>
    rw [subtreesAll, List.mem_append]
    rcases List.mem_cons.mp hp with rfl | hp
    · exact .inl hq
    · exact .inr (ih hp)

/-- Every tree is one of its subtrees. -/
theorem self_mem_subtrees (p : PatternTerm) : p ∈ p.subtrees := by
  cases p <;> simp [subtrees]

/-- The subtrees of an argument are subtrees of the operation. -/
theorem mem_subtrees_node {head : Head} {args : List PatternTerm} {p q : PatternTerm}
    (hp : p ∈ args) (hq : q ∈ p.subtrees) : q ∈ (node head args).subtrees := by
  rw [subtrees]
  exact List.mem_cons_of_mem _ (mem_subtreesAll hp hq)

/-- Texts tell the subtrees of the one tree from those of the other. -/
def TextsTell (p q : PatternTerm) : Prop :=
  ∀ a ∈ p.subtrees, ∀ b ∈ q.subtrees, a.text = b.text → a = b

instance (p q : PatternTerm) : Decidable (TextsTell p q) :=
  inferInstanceAs (Decidable (∀ a ∈ p.subtrees, ∀ b ∈ q.subtrees, a.text = b.text → a = b))

/-- If texts tell the parts of two operations apart, they tell those of two of their arguments
    apart. -/
theorem TextsTell.of_mem {head inner : Head} {args others : List PatternTerm}
    (h : TextsTell (node head args) (node inner others)) {p q : PatternTerm} (hp : p ∈ args)
    (hq : q ∈ others) : TextsTell p q :=
  fun a ha b hb => h a (mem_subtrees_node hp ha) b (mem_subtrees_node hq hb)

/-- **Alike trees in order are equal** if texts tell their subtrees apart. -/
theorem Arranged.eq_of_alike {p q : PatternTerm} (hp : Arranged p) (hq : Arranged q)
    (htexts : TextsTell p q) (h : Alike Eq p q) : p = q := by
  induction p using inductionOn generalizing q with
  | atom t => exact (alike_atom.mp h).symm
  | wildcard w =>
    obtain ⟨name, hname, rfl⟩ := alike_wildcard.mp h
    rw [← eq_of_rel hname]
    rfl
  | node head args ih =>
    obtain ⟨others, rfl, middle, hreorder, hargs⟩ := alike_node.mp h
    cases hp with
    | node hpargs hporder =>
      cases hq with
      | node hqargs hqorder =>
        -- The arguments in the order of the other tree are equal to these, by induction.
        have hmiddle : middle = others := by
          have hleft := (List.forall₂_and_left middle others).mpr
            ⟨fun p hp => hreorder.perm.mem_iff.mpr hp, hargs⟩
          have hboth :=
            ((List.forall₂_and_left others middle).mpr ⟨fun q hq => hq, hleft.flip⟩).flip
          refine List.forall₂_eq_eq_eq ▸ hboth.imp fun p q ⟨hq, hp, hpq⟩ => ?_
          exact ih p hp (hpargs p hp) (hqargs q hq) (htexts.of_mem hp hq) hpq
        subst hmiddle
        cases hcomm : head.isCommutative with
        | false => rw [(Head.Reorders.iff_eq hcomm).mp hreorder]
        | true =>
          -- Two sorted orders of the same trees differ at trees with one text only.
          have hperm := (Head.Reorders.iff_perm hcomm).mp hreorder
          refine congrArg _ (hperm.eq_of_pairwise (fun p q hp hq hpq hqp => ?_) (hporder hcomm)
            (hqorder hcomm))
          exact htexts p (mem_subtrees_node hp (self_mem_subtrees p)) q
            (mem_subtrees_node hq (self_mem_subtrees q)) (text_eq_of_le hpq hqp)

/-- **Trees are settled** if they are in order and texts tell their subtrees apart. -/
theorem Arranged.settled {p : PatternTerm} (h : Arranged p) (htexts : TextsTell p p) :
    p.Settled := by
  induction p using inductionOn with
  | atom t => exact .atom t
  | wildcard w => exact .wildcard w
  | node head args ih =>
    cases h with
    | node hargs hordered =>
      refine .node (fun p hp => ih p hp (hargs p hp) (htexts.of_mem hp hp)) ?_
      intro _ p hp q hq _ _ hpq
      exact (hargs p hp).eq_of_alike (hargs q hq) (htexts.of_mem hp hq) hpq

end TermNet.PatternTerm
