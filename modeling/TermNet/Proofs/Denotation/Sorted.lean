import TermNet.Proofs.Denotation.Patterns

namespace TermNet

/-!
# Plain and commutative arguments

Among plain arguments a run keeps its order, among commutative ones it is sorted.  Apart from
that a wildcard takes the same in both places, unless it is an optional one for symbols.

* `Binding.sorted` — a binding with its terms in order;
* `Wildcard.Takes.plain`, `Wildcard.Takes.commutative` — from one place to the other;
* `Wildcard.Takes.sorted_binding` — bindings that are in order already;
* `denotes_build_iff` — what operations denote whose arguments are not regrouped.
-/

/-! ### Bindings -/

/-- The binding with its terms in order. -/
def Binding.sorted : Binding → Binding
  | .single t => .single t
  | .sequence ts => .sequence (sortBy Term.le ts)

/-- A run below an associative operation is one term, so there is nothing to sort. -/
theorem Binding.sorted_ofRun_some (ts : List Term) (head : Head) :
    (Binding.ofRun ts (some head)).sorted = .ofRun ts (some head) := by
  cases ts with
  | nil => rfl
  | cons t ts => rfl

variable {f g head : Head} {parent : Option Head} {w : Wildcard} {ts : List Term} {b : Binding}

/-! ### Heads that are not associative -/

/-- Plain heads are not associative. -/
theorem not_associative_plain (hf : f.kind = .plain) : f.isAssociative = false := by
  rw [Head.isAssociative, hf, OpKind.isAssociative]

/-- Heads that are only commutative are not associative. -/
theorem not_associative_commutative (hg : g.kind = .commutative) : g.isAssociative = false := by
  rw [Head.isAssociative, hg, OpKind.isAssociative]

/-- A plain head is no associative parent. -/
theorem filter_plain (hf : f.kind = .plain) : (some f).filter Head.isAssociative = none := by
  rw [Option.filter_some, not_associative_plain hf, if_neg Bool.false_ne_true]

/-- A head that is only commutative is no associative parent. -/
theorem filter_commutative (hg : g.kind = .commutative) :
    (some g).filter Head.isAssociative = none := by
  rw [Option.filter_some, not_associative_commutative hg, if_neg Bool.false_ne_true]

/-- The arguments of a plain operation are ordered. -/
theorem unordered_plain (hf : f.kind = .plain) : unordered (some f) = false := by
  simp [unordered, Head.isCommutative, OpKind.isCommutative, hf]

/-- The arguments of a commutative operation are unordered. -/
theorem unordered_commutative (hg : g.kind = .commutative) : unordered (some g) = true := by
  simp [unordered, Head.isCommutative, OpKind.isCommutative, hg]

/-- **What is taken among commutative arguments is taken among plain ones,** except for optional
    symbol wildcards. -/
theorem Wildcard.Takes.plain (hf : f.kind = .plain) (hg : g.kind = .commutative)
    (hsymbol : w.symbolKind.isSome = true → w.isOptional = false)
    (h : w.Takes (some g) ts b) : w.Takes (some f) ts b := by
  have hlabel : w.labelBelow (some g) = w.labelBelow (some f) := by
    cases hextent : w.extent with
    | run n =>
      rw [labelBelow_of_run hextent, labelBelow_of_run hextent, filter_commutative hg,
        filter_plain hf]
    | one kind =>
      rw [labelBelow_of_one hextent fun _ => filter_commutative hg,
        labelBelow_of_one hextent fun _ => filter_plain hf, unordered_commutative hg,
        unordered_plain hf, Bool.true_and, Bool.false_and, if_neg Bool.false_ne_true]
      -- The kind is dropped for optional wildcards only, and these have none here.
      cases hoptional : w.isOptional with
      | false => rw [if_neg Bool.false_ne_true]
      | true =>
        cases kind with
        | none => rw [if_pos rfl]
        | some kind =>
          have hkind : w.symbolKind.isSome = true := by rw [Wildcard.symbolKind, hextent]; rfl
          exact absurd ((hsymbol hkind).symm.trans hoptional) Bool.false_ne_true
  exact ⟨hlabel ▸ h.label, fun hunordered =>
    absurd ((unordered_plain hf).symm.trans hunordered) Bool.false_ne_true⟩

/-- **What is taken among plain arguments is taken among commutative ones,** where it is
    sorted. -/
theorem Wildcard.Takes.commutative (hf : f.kind = .plain) (hg : g.kind = .commutative)
    (h : w.Takes (some f) ts b) : w.Takes (some g) (sortBy Term.le ts) b.sorted := by
  refine ⟨?_, fun _ => sorted_sortBy_le ts⟩
  have hlabel := h.label
  cases hextent : w.extent with
  | run n =>
    rw [labelBelow_of_run hextent, filter_plain hf, Label.takes_run_iff] at hlabel
    rw [labelBelow_of_run hextent, filter_commutative hg, Label.takes_run_iff,
      (sortBy_perm _ ts).length_eq]
    rcases hlabel with ⟨rfl, t, hdefault, rfl⟩ | ⟨hlength, rfl⟩
    · exact .inl ⟨rfl, t, hdefault, rfl⟩
    · exact .inr ⟨hlength, rfl⟩
  | one kind =>
    rw [labelBelow_of_one hextent fun _ => filter_plain hf, Label.takes_one_iff,
      unordered_plain hf, Bool.false_and, if_neg Bool.false_ne_true] at hlabel
    rw [labelBelow_of_one hextent fun _ => filter_commutative hg, Label.takes_one_iff]
    rcases hlabel with ⟨rfl, t, hdefault, rfl⟩ | ⟨t, rfl, hall, rfl⟩
    · exact .inl ⟨rfl, t, hdefault, rfl⟩
    · refine .inr ⟨t, rfl, ?_, rfl⟩
      split
      · rfl
      · exact hall

/-- A fixed wildcard is bound to one term. -/
theorem Wildcard.Takes.sorted_of_fixed (hf : f.kind = .plain) (h : w.Takes (some f) ts b)
    (hfixed : w.isSequence = false) : b.sorted = b := by
  have hlabel := h.label
  cases hextent : w.extent with
  | run n => simp [Wildcard.isSequence, Wildcard.isFixed, hextent] at hfixed
  | one kind =>
    rw [labelBelow_of_one hextent fun _ => filter_plain hf, Label.takes_one_iff] at hlabel
    rcases hlabel with ⟨-, t, -, rfl⟩ | ⟨t, -, -, rfl⟩
    · rfl
    · rfl

/-- **Bindings below heads that are not plain are in order:** they are sorted, or one term. -/
theorem Wildcard.Takes.sorted_binding (h : w.Takes (some head) ts b) (hkind : head.kind ≠ .plain) :
    b.sorted = b := by
  have hlabel := h.label
  rcases w.labelBelow_cases (some head) with
    ⟨n, -, heq⟩ | ⟨inner, -, -, heq⟩ | ⟨kind, -, -, heq⟩
  · rw [heq, Label.takes_run_iff] at hlabel
    rcases hlabel with ⟨-, t, -, rfl⟩ | ⟨-, rfl⟩
    · rfl
    · rw [Option.filter_some]
      split
      · exact Binding.sorted_ofRun_some ts head
      · rename_i hassoc
        -- A head that is neither plain nor associative is commutative.
        have hcomm : unordered (some head) = true := by
          cases hhead : head.kind <;>
            simp [unordered, Head.isCommutative, Head.isAssociative, OpKind.isCommutative,
              OpKind.isAssociative, hhead] at hkind hassoc ⊢
        exact congrArg Binding.sequence (sortBy_eq_self (h.sorted hcomm))
  · rw [heq, Label.takes_run_iff] at hlabel
    rcases hlabel with ⟨-, t, -, rfl⟩ | ⟨-, rfl⟩
    · rfl
    · exact Binding.sorted_ofRun_some ts inner
  · rw [heq, Label.takes_one_iff] at hlabel
    rcases hlabel with ⟨-, t, -, rfl⟩ | ⟨t, -, -, rfl⟩
    · rfl
    · rfl

/-! ### Operations -/

variable {σ : Substitution} {qs args others : List PatternTerm} {as bs : List Term}
  {runs : List (PatternTerm × List Term)}

/-- The order of arguments makes no difference to a head that does not mind. -/
theorem ArgsDenote.reorder (h : ArgsDenote σ head args as runs) (hargs : head.Reorders args others)
    (has : head.Reorders as bs) : ∃ more, ArgsDenote σ head others bs more := by
  have halike : ArgsAlike Eq head args others :=
    ⟨others, hargs, List.forall₂_same.mpr fun p _ => Alike.refl p⟩
  obtain ⟨more, hmore⟩ := h.alike halike (fun x x' y hx hx' => hx.trans hx'.symm)
    fun p _ q ts hpq hp => hpq.denotes (fun x y hxy => by rw [hxy])
      (fun x x' y hx hx' => hx.trans hx'.symm) hp
  exact ⟨more, { hmore with reorders := hmore.reorders.trans has }⟩

/-- Below a head that is not associative nothing is spliced. -/
theorem PatternTerm.flatMap_spliced (hassoc : head.isAssociative = false) (qs : List PatternTerm) :
    qs.flatMap (PatternTerm.spliced head) = qs := by
  refine (List.flatMap_congr fun p _ => ?_).trans (List.flatMap_singleton' qs)
  cases p with
  | atom t => rfl
  | wildcard w => rfl
  | node inner args => rw [spliced, hassoc, Bool.false_and, if_neg Bool.false_ne_true]

/-- Making an operation canonical only reorders its arguments, if none is spliced in. -/
theorem PatternTerm.canonical_build (hassoc : head.isAssociative = false) (qs : List PatternTerm) :
    ∃ args, (build head qs).canonical = node head args ∧
      head.Reorders (qs.map canonical) args := by
  rw [build, canonical_node, build, flatMap_spliced hassoc, flatMap_spliced hassoc]
  exact ⟨_, rfl, ((reorders_arranged head qs).map _).trans (reorders_arranged head _)⟩

/-- **What an operation denotes** whose arguments are not regrouped. -/
theorem denotes_build_iff (hassoc : head.isAssociative = false) :
    (PatternTerm.build head qs).canonical.Denotes σ none [Term.build head as] ↔
      ∃ runs, ArgsDenote σ head (qs.map PatternTerm.canonical) as runs := by
  obtain ⟨args, hcanonical, hargs⟩ := PatternTerm.canonical_build hassoc qs
  have hsplice : Term.splice head as = as :=
    Term.splice_of_flat fun t _ => Term.spliced_of_not_associative hassoc t
  have harrange : head.Reorders (Term.arrange head as) as := (Head.Reorders.arrange head as).symm
  rw [hcanonical, denotes_node, Term.build, hsplice]
  constructor
  · rintro ⟨as', heq, runs, hruns⟩
    obtain ⟨-, rfl⟩ := Term.node.inj (List.head_eq_of_cons_eq heq)
    exact hruns.reorder hargs.symm harrange
  · rintro ⟨runs, hruns⟩
    exact ⟨_, rfl, hruns.reorder hargs harrange.symm⟩

end TermNet
