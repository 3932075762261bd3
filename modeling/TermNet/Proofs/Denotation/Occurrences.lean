import Mathlib.Data.List.Induction
import TermNet.Proofs.Pattern.Shares

namespace TermNet

/-!
# What the occurrences of sequence variables take

A partition has one part for each counted variable.  Handing the part to every occurrence of
the variable gives each of them its own run of arguments, and the way back counts the
occurrences again.

* `SharedOut` — parts of counted variables and runs of their occurrences belong together;
* `exists_occurrences` — from the parts to the runs;
* `exists_counted` — from the runs to the parts.
-/

/-- **The parts of counted variables are the runs of their occurrences:** a part is taken as
    often as its variable is counted, and occurrences of one named variable take the same. -/
structure SharedOut (counted occurrences : List (SequenceVariable × List Term)) : Prop where
  positive : ∀ v ∈ counted, 1 ≤ v.1.count
  forth : ∀ v ∈ counted, (v.1.base, v.2) ∈ occurrences
  back : ∀ o ∈ occurrences, ∃ v ∈ counted, v.1.base = o.1 ∧ v.2 = o.2
  alike : ∀ o ∈ occurrences, ∀ o' ∈ occurrences, o.1 = o'.1 → o.1.name.isSome = true → o.2 = o'.2
  perm : (counted.flatMap fun v => (List.replicate (max v.1.count 1) v.2).flatten).Perm
    (occurrences.flatMap Prod.snd)

/-- Nothing is shared out among no occurrences. -/
theorem SharedOut.nil : SharedOut [] [] :=
  ⟨by simp, by simp, by simp, by simp, .refl _⟩

variable {before after counted occurrences : List (SequenceVariable × List Term)}
  {known var : SequenceVariable} {part : List Term}

/-- The part of a variable that is counted once more is taken once more. -/
theorem perm_counted (before after : List (SequenceVariable × List Term))
    (known : SequenceVariable) (part : List Term) (hpositive : 1 ≤ known.count) :
    ((before ++ ({ known with count := known.count + 1 }, part) :: after).flatMap fun v =>
        (List.replicate (max v.1.count 1) v.2).flatten).Perm
      (((before ++ (known, part) :: after).flatMap fun v =>
        (List.replicate (max v.1.count 1) v.2).flatten) ++ part) := by
  have hmax : max (known.count + 1) 1 = max known.count 1 + 1 := by omega
  have hmore : (List.replicate (max (known.count + 1) 1) part).flatten.Perm
      ((List.replicate (max known.count 1) part).flatten ++ part) := by
    rw [hmax, List.replicate_succ, List.flatten_cons]
    exact List.perm_append_comm
  simp only [List.flatMap_append, List.flatMap_cons, List.append_assoc]
  refine .append_left _ ((hmore.append_right _).trans ?_)
  rw [List.append_assoc]
  exact List.perm_append_comm.append_left _

/-- One more occurrence of a variable that is known. -/
theorem SharedOut.count (h : SharedOut (before ++ (known, part) :: after) occurrences)
    (hknown : known.base = var) :
    SharedOut (before ++ ({ known with count := known.count + 1 }, part) :: after)
      (occurrences ++ [(var, part)]) := by
  have hmem : (known, part) ∈ before ++ (known, part) :: after :=
    List.mem_append_right _ List.mem_cons_self
  have hold : (var, part) ∈ occurrences := hknown ▸ h.forth _ hmem
  -- only the number of occurrences changes, and the new one is an old one once more
  have hchanged : ∀ {v}, v ∈ before ++ ({ known with count := known.count + 1 }, part) :: after →
      v = ({ known with count := known.count + 1 }, part) ∨
        v ∈ before ++ (known, part) :: after := by
    intro v hv
    simp only [List.mem_append, List.mem_cons] at hv ⊢
    tauto
  have hwithin : ∀ {o}, o ∈ occurrences ++ [(var, part)] → o ∈ occurrences := by
    intro o ho
    rcases List.mem_append.mp ho with ho | ho
    · exact ho
    · exact List.mem_singleton.mp ho ▸ hold
  refine ⟨fun v hv => ?_, fun v hv => List.mem_append_left _ ?_, fun o ho => ?_,
    fun o ho o' ho' => h.alike o (hwithin ho) o' (hwithin ho'), ?_⟩
  · rcases hchanged hv with rfl | hv
    · exact Nat.le_add_left 1 known.count
    · exact h.positive v hv
  · rcases hchanged hv with rfl | hv
    · exact h.forth (known, part) hmem
    · exact h.forth v hv
  · obtain ⟨v, hv, hbase, hpart⟩ := h.back o (hwithin ho)
    simp only [List.mem_append, List.mem_cons] at hv
    rcases hv with hv | rfl | hv
    · exact ⟨v, by simp [hv], hbase, hpart⟩
    · exact ⟨_, List.mem_append_right _ List.mem_cons_self, hbase, hpart⟩
    · exact ⟨v, by simp [hv], hbase, hpart⟩
  · have hmore := perm_counted before after known part (h.positive _ hmem)
    have hlast : (occurrences ++ [(var, part)]).flatMap Prod.snd =
        occurrences.flatMap Prod.snd ++ part := by
      rw [List.flatMap_append, List.flatMap_singleton]
    rw [hlast]
    exact hmore.trans (h.perm.append_right part)

/-- The first occurrence of a variable. -/
theorem SharedOut.append (h : SharedOut counted occurrences) (hbase : var.base = var)
    (hnew : var.name.isSome = true → ∀ v ∈ counted, v.1.base ≠ var) :
    SharedOut (counted ++ [(var, part)]) (occurrences ++ [(var, part)]) := by
  have hcount : var.count = 1 := by
    rw [← hbase]
    rfl
  -- a variable with a name has not occurred before
  have hfresh : ∀ o ∈ occurrences, var.name.isSome = true → o.1 ≠ var := by
    intro o ho hname heq
    obtain ⟨v, hv, hsame, -⟩ := h.back o ho
    exact hnew hname v hv (hsame.trans heq)
  refine ⟨fun v hv => ?_, fun v hv => ?_, fun o ho => ?_, fun o ho o' ho' hsame hname => ?_, ?_⟩
  · rcases List.mem_append.mp hv with hv | hv
    · exact h.positive v hv
    · rw [List.mem_singleton.mp hv]
      exact Nat.le_of_eq hcount.symm
  · rcases List.mem_append.mp hv with hv | hv
    · exact List.mem_append_left _ (h.forth v hv)
    · rw [List.mem_singleton.mp hv, hbase]
      exact List.mem_append_right _ List.mem_cons_self
  · rcases List.mem_append.mp ho with ho | ho
    · obtain ⟨v, hv, hv'⟩ := h.back o ho
      exact ⟨v, List.mem_append_left _ hv, hv'⟩
    · exact ⟨o, List.mem_append_right _ ho, by rw [List.mem_singleton.mp ho, hbase], rfl⟩
  · rcases List.mem_append.mp ho with ho | ho <;> rcases List.mem_append.mp ho' with ho' | ho'
    · exact h.alike o ho o' ho' hsame hname
    · rw [List.mem_singleton.mp ho'] at hsame
      rw [hsame] at hname
      exact absurd hsame (hfresh o ho hname)
    · rw [List.mem_singleton.mp ho] at hsame hname
      exact absurd hsame.symm (hfresh o' ho' hname)
    · rw [List.mem_singleton.mp ho, List.mem_singleton.mp ho']
  · have hone : (List.replicate (max var.count 1) part).flatten = part := by simp [hcount]
    simp only [List.flatMap_append, List.flatMap_cons, List.flatMap_nil, List.append_nil, hone]
    exact h.perm.append_right part

/-! ### Counting -/

/-- Adding a variable counts one that is known, or appends a new one. -/
theorem addSequenceVariable_counted_or_append (var : SequenceVariable)
    (vars : List SequenceVariable) :
    (var.name.isSome = true ∧ ∃ before known after, vars = before ++ known :: after ∧
      known.base = var.base ∧ addSequenceVariable var vars =
        before ++ { known with count := known.count + 1 } :: after) ∨
    ((var.name.isSome = true → ∀ known ∈ vars, known.base ≠ var.base) ∧
      addSequenceVariable var vars = vars ++ [var]) := by
  cases hname : var.name.isSome with
  | true =>
    exact (addSequenceVariable_cases hname vars).imp (fun h => ⟨rfl, h⟩) fun h =>
      ⟨fun _ => h.1, h.2⟩
  | false =>
    refine .inr ⟨by simp, ?_⟩
    induction vars with
    | nil => rfl
    | cons known rest ih =>
      rw [addSequenceVariable, if_neg, ih]
      · rfl
      · intro hsame
        rw [Bool.and_eq_true, decide_eq_true_eq] at hsame
        have hnames := congrArg SequenceVariable.name hsame.2
        have hnone : var.name = known.name := hnames
        rw [← hnone, hname] at hsame
        exact Bool.false_ne_true hsame.1

/-- **From the parts of the variables to the runs of their occurrences.** -/
theorem exists_occurrences {os : List SequenceVariable} (hbase : ∀ o ∈ os, o.base = o)
    (h : counted.map Prod.fst = os.foldl (fun known var => addSequenceVariable var known) []) :
    ∃ occurrences, occurrences.map Prod.fst = os ∧ SharedOut counted occurrences := by
  induction os using List.reverseRecOn generalizing counted with
  | nil =>
    obtain rfl := List.map_eq_nil_iff.mp h
    exact ⟨[], rfl, .nil⟩
  | append_singleton os var ih =>
    have hvar : var.base = var := hbase var (by simp)
    have hos : ∀ o ∈ os, o.base = o := fun o ho => hbase o (List.mem_append_left _ ho)
    rw [List.foldl_append, List.foldl_cons, List.foldl_nil] at h
    rcases addSequenceVariable_counted_or_append var
        (os.foldl (fun known var => addSequenceVariable var known) []) with
      ⟨-, before, known, after, hvars, hknown, heq⟩ | ⟨hnew, heq⟩
    -- One more occurrence of a variable gets the part that the variable has already.
    · rw [heq] at h
      obtain ⟨before, others, rfl, rfl, hothers⟩ := List.map_eq_append_iff.mp h
      obtain ⟨⟨first, part⟩, after, rfl, hfirst, rfl⟩ := List.map_eq_cons_iff.mp hothers
      obtain rfl : first = { known with count := known.count + 1 } := hfirst
      have hknown' : (before ++ (known, part) :: after).map Prod.fst =
          os.foldl (fun known var => addSequenceVariable var known) [] := by
        rw [hvars, List.map_append, List.map_cons]
      obtain ⟨occurrences, hfst, hshared⟩ := ih hos hknown'
      refine ⟨occurrences ++ [(var, part)], by rw [List.map_append, hfst]; rfl, ?_⟩
      exact hshared.count (hknown.trans hvar)
    · rw [heq] at h
      obtain ⟨counted, last, rfl, hcounted, hlast⟩ := List.map_eq_append_iff.mp h
      obtain ⟨⟨first, part⟩, rfl, rfl⟩ := List.map_eq_singleton_iff.mp hlast
      obtain ⟨occurrences, hfst, hshared⟩ := ih hos hcounted
      refine ⟨occurrences ++ [(first, part)], by rw [List.map_append, hfst]; rfl, ?_⟩
      refine hshared.append hvar fun hname v hv heq => ?_
      exact hnew hname v.1 (hcounted ▸ List.mem_map_of_mem hv) (heq.trans hvar.symm)

/-- **From the runs of the occurrences to the parts of the variables.** -/
theorem exists_counted (hbase : ∀ o ∈ occurrences, o.1.base = o.1)
    (halike : ∀ o ∈ occurrences, ∀ o' ∈ occurrences, o.1 = o'.1 → o.1.name.isSome = true →
      o.2 = o'.2) :
    ∃ counted, counted.map Prod.fst =
        (occurrences.map Prod.fst).foldl (fun known var => addSequenceVariable var known) [] ∧
      SharedOut counted occurrences := by
  induction occurrences using List.reverseRecOn with
  | nil => exact ⟨[], rfl, .nil⟩
  | append_singleton occurrences last ih =>
    obtain ⟨var, part⟩ := last
    have hlast : (var, part) ∈ occurrences ++ [(var, part)] := by simp
    have hvar : var.base = var := hbase _ hlast
    obtain ⟨counted, hcounted, hshared⟩ := ih
      (fun o ho => hbase o (List.mem_append_left _ ho))
      (fun o ho o' ho' => halike o (List.mem_append_left _ ho) o' (List.mem_append_left _ ho'))
    rw [List.map_append, List.foldl_append, ← hcounted]
    rcases addSequenceVariable_counted_or_append var (counted.map Prod.fst) with
      ⟨hname, before, known, after, hvars, hknown, heq⟩ | ⟨hnew, heq⟩
    · obtain ⟨before, others, rfl, rfl, hothers⟩ := List.map_eq_append_iff.mp hvars
      obtain ⟨⟨first, shared⟩, after, rfl, rfl, rfl⟩ := List.map_eq_cons_iff.mp hothers
      have hfirst : (var, shared) ∈ occurrences := by
        have hforth := hshared.forth (first, shared) (by simp)
        rwa [show first.base = var from hknown.trans hvar] at hforth
      -- Both occurrences have the same run, so counting one more is enough.
      obtain rfl : shared = part := halike _ (List.mem_append_left _ hfirst) _ hlast rfl hname
      refine ⟨before ++ ({ first with count := first.count + 1 }, shared) :: after, ?_,
        hshared.count (hknown.trans hvar)⟩
      rw [List.map_cons, List.map_nil, List.foldl_cons, List.foldl_nil, heq, List.map_append,
        List.map_cons]
    · refine ⟨counted ++ [(var, part)], ?_, hshared.append hvar fun hname v hv heq => ?_⟩
      · rw [List.map_cons, List.map_nil, List.foldl_cons, List.foldl_nil, heq, List.map_append]
        rfl
      · exact hnew hname v.1 (List.mem_map_of_mem hv) (heq.trans hvar.symm)

end TermNet
