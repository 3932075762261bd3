import TermNet.Proofs.Commutative.Matching

namespace TermNet

/-!
# No match of commutative arguments is found twice

A match tells which arguments the operands have got, in which ways, and which parts the
sequence variables have got, as soon as the ways bind the variables of their operands and
all sequence variables are named.  So different choices of the search end in different
substitutions.

* `nodup_flatMap_of` — a search whose results tell where they come from;
* `nodup_partitions` — no partition is listed twice;
* `CommutativePattern.nodup_unionPairs`, `nodup_outcomes`, `nodup_matchSorted` — no choice of
  ways, no match of one pairing and no match at all is found twice.
-/

variable {α β : Type}

/-- A search whose results tell where they come from finds nothing twice. -/
theorem nodup_flatMap_of {xs : List α} {f : α → List β} (hxs : xs.Nodup)
    (hf : ∀ x ∈ xs, (f x).Nodup)
    (htell : ∀ x ∈ xs, ∀ y ∈ xs, ∀ z, z ∈ f x → z ∈ f y → x = y) : (xs.flatMap f).Nodup := by
  rw [List.nodup_flatMap]
  refine ⟨hf, hxs.imp_of_mem fun {x y} hx hy hne => ?_⟩
  exact List.disjoint_left.mpr fun z hz hz' => hne (htell x hx y hy z hz hz')

/-- Images are different if equal ones come from equal members. -/
theorem nodup_filterMap_of {xs : List α} {f : α → Option β} (hxs : xs.Nodup)
    (htell : ∀ x ∈ xs, ∀ y ∈ xs, ∀ z, f x = some z → f y = some z → x = y) :
    (xs.filterMap f).Nodup := by
  have hflat : xs.filterMap f = xs.flatMap fun x => (f x).toList := by
    clear hxs htell
    induction xs with
    | nil => rfl
    | cons x xs ih => cases hx : f x <;> simp [hx, ih]
  rw [hflat]
  refine nodup_flatMap_of hxs (fun x _ => ?_) fun x hx y hy z hz hz' => ?_
  · cases f x <;> simp
  · exact htell x hx y hy z (Option.mem_toList.mp hz) (Option.mem_toList.mp hz')

/-! ### Partitions -/

namespace Partition

/-- Choices of one variable are different in what it takes. -/
theorem nodup_choices (count : Nat) (last : Bool) (available : List Nat) :
    (choices count last available).Nodup ∧
      ∀ choice ∈ choices count last available, ∀ other ∈ choices count last available,
        choice.1 = other.1 → choice = other := by
  induction available with
  | nil => exact ⟨List.nodup_singleton _, by simp [choices]⟩
  | cons a rest ih =>
    obtain ⟨hnodup, htakes⟩ := ih
    -- How many of the first term are taken: all for the last variable, or any multiple.
    have hoptions : (if last then if a % count = 0 then [a / count] else []
        else List.range (a / count + 1)).Nodup := by
      split
      · split
        · exact List.nodup_singleton _
        · exact List.nodup_nil
      · exact List.nodup_range
    have hsame : ∀ choice ∈ choices count last (a :: rest),
        ∀ other ∈ choices count last (a :: rest), choice.1 = other.1 → choice = other := by
      intro choice hchoice other hother heq
      rw [choices, List.mem_flatMap] at hchoice hother
      obtain ⟨take, -, hchoice⟩ := hchoice
      obtain ⟨take', -, hother⟩ := hother
      obtain ⟨tail, htail, rfl⟩ := List.mem_map.mp hchoice
      obtain ⟨tail', htail', rfl⟩ := List.mem_map.mp hother
      obtain ⟨rfl, htails⟩ := List.cons.inj heq
      rw [htakes tail htail tail' htail' htails]
    refine ⟨?_, hsame⟩
    rw [choices]
    refine nodup_flatMap_of hoptions (fun take _ => ?_) fun take _ take' _ choice h h' => ?_
    · refine hnodup.map_on fun tail htail tail' htail' heq => ?_
      exact htakes tail htail tail' htail' (List.cons.inj (Prod.mk.inj heq).1).2
    · obtain ⟨tail, -, rfl⟩ := List.mem_map.mp h
      obtain ⟨tail', -, heq⟩ := List.mem_map.mp h'
      exact (List.cons.inj (Prod.mk.inj heq).1).1.symm

/-- **No split is listed twice.**  The induction is on the variables, since the choices of the
    first one are different. -/
theorem nodup_split {distinct : List Term} (hnodup : distinct.Nodup)
    (vars : List SequenceVariable) {available : List Nat}
    (hlength : available.length = distinct.length) : (split distinct vars available).Nodup := by
  induction vars generalizing available with
  | nil =>
    rw [split]
    split
    · exact List.nodup_singleton _
    · exact List.nodup_nil
  | cons var rest ih =>
    have hcount : 0 < max var.count 1 := by omega
    obtain ⟨hchoices, htakes⟩ := nodup_choices (max var.count 1) rest.isEmpty available
    have hlengths : ∀ choice ∈ choices (max var.count 1) rest.isEmpty available,
        choice.1.length = distinct.length ∧ choice.2.length = distinct.length := by
      rintro ⟨takes, left⟩ hchoice
      obtain ⟨htake, rfl⟩ := (mem_choices_iff hcount).mp hchoice
      have hlen := htake.length_eq
      refine ⟨hlen.symm.trans hlength, ?_⟩
      rw [List.length_zipWith, ← hlen, Nat.min_self, hlength]
    rw [split]
    refine nodup_flatMap_of (hchoices.filter _) (fun choice hchoice => ?_)
      fun choice hchoice other hother parts h h' => ?_
    · obtain ⟨hmem, -⟩ := List.mem_filter.mp hchoice
      exact (ih (hlengths choice hmem).2).map (List.cons_injective)
    · obtain ⟨hmem, -⟩ := List.mem_filter.mp hchoice
      obtain ⟨hmem', -⟩ := List.mem_filter.mp hother
      obtain ⟨tail, -, rfl⟩ := List.mem_map.mp h
      obtain ⟨tail', -, heq⟩ := List.mem_map.mp h'
      -- Equal first parts are equal multisets, so they come from equal numbers.
      have hruns := (List.cons.inj heq).1
      have hcounts := (count_multiset hnodup (hlengths choice hmem).1).1
      have hcounts' := (count_multiset hnodup (hlengths other hmem').1).1
      rw [hruns, hcounts] at hcounts'
      exact htakes choice hmem other hmem' hcounts'

end Partition

/-- **No partition is listed twice.** -/
theorem nodup_partitions (leftover : List Term) (vars : List SequenceVariable) :
    (partitions leftover vars).Nodup := by
  have hcounted := Partition.isCounted_countRuns (sorted_sortBy_le leftover)
  unfold partitions
  refine Partition.nodup_split hcounted.nodup vars ?_
  rw [List.length_map, List.length_map]

/-! ### Substitutions below others -/

/-- What is below a substitution is known by what it binds. -/
theorem Substitution.Below.eq_of_binds {σ τ ρ : Substitution} (hσ : σ.Below ρ) (hτ : τ.Below ρ)
    (h : ∀ x, σ.Binds x ↔ τ.Binds x) : σ = τ := by
  refine Below.antisymm (fun x b hb => ?_) fun x b hb => ?_
  · rw [← hτ.find?_eq ((h x).mp ⟨b, hb⟩)]
    exact hσ x b hb
  · rw [← hσ.find?_eq ((h x).mpr ⟨b, hb⟩)]
    exact hτ x b hb

namespace CommutativePattern

/-! ### Ways -/

variable {ways : Nat → Term → List Substitution} {names : Nat → List String}
variable {pairs : List (Nat × Term)}

/-- **No choice of ways is made twice,** if the ways for a pair are different and bind the
    variables of their operand. -/
theorem nodup_unionPairs (hnodup : ∀ pair ∈ pairs, (ways pair.1 pair.2).Nodup)
    (hnames : ∀ pair ∈ pairs, ∀ τ ∈ ways pair.1 pair.2, ∀ x, τ.Binds x ↔ x ∈ names pair.1)
    (σ : Substitution) : (unionPairs ways pairs σ).Nodup := by
  induction pairs generalizing σ with
  | nil => exact List.nodup_singleton _
  | cons pair rest ih =>
    have hrest := ih (fun p hp => hnodup p (List.mem_cons_of_mem _ hp))
      fun p hp => hnames p (List.mem_cons_of_mem _ hp)
    -- A way for the first pair can be read off the union: it is what the union has for its names.
    have hbelow : ∀ τ ρ, ρ ∈ (σ.union? τ).toList.flatMap (unionPairs ways rest) → τ.Below ρ := by
      intro τ ρ hρ
      obtain ⟨union, hunion, hρ⟩ := List.mem_flatMap.mp hρ
      have hτ := (Substitution.below_of_union? (Option.mem_toList.mp hunion)).2
      obtain ⟨τs, -, hbinds⟩ := mem_unionPairs_iff.mp hρ
      exact hτ.trans fun x b hb => (hbinds x b).mpr (.inl hb)
    rw [unionPairs, filterMap_flatMap_eq]
    refine nodup_flatMap_of (hnodup pair List.mem_cons_self) (fun τ _ => ?_)
      fun τ hτ τ' hτ' ρ hρ hρ' => ?_
    · cases σ.union? τ with
      | none => exact List.nodup_nil
      | some union => simpa using hrest union
    · refine (hbelow τ ρ hρ).eq_of_binds (hbelow τ' ρ hρ') fun x => ?_
      rw [hnames pair List.mem_cons_self τ hτ, hnames pair List.mem_cons_self τ' hτ']

/-- The variables of all operands are bound, and no others. -/
theorem binds_of_mem_unionPairs {σ ρ : Substitution} (h : ρ ∈ unionPairs ways pairs σ)
    (hnames : ∀ pair ∈ pairs, ∀ τ ∈ ways pair.1 pair.2, ∀ x, τ.Binds x ↔ x ∈ names pair.1)
    (x : String) : ρ.Binds x ↔ σ.Binds x ∨ ∃ pair ∈ pairs, x ∈ names pair.1 := by
  obtain ⟨τs, hτs, hbinds⟩ := mem_unionPairs_iff.mp h
  have hways : (∃ τ ∈ τs, τ.Binds x) ↔ ∃ pair ∈ pairs, x ∈ names pair.1 := by
    clear hbinds h
    induction hτs with
    | nil => simp
    | cons hτ _ ih =>
      simp only [List.mem_cons, exists_eq_or_imp]
      rw [ih fun p hp => hnames p (List.mem_cons_of_mem _ hp), hnames _ List.mem_cons_self _ hτ]
  rw [← hways]
  constructor
  · rintro ⟨b, hb⟩
    rcases (hbinds x b).mp hb with hb | ⟨τ, hτ, hb⟩
    · exact .inl ⟨b, hb⟩
    · exact .inr ⟨τ, hτ, b, hb⟩
  · rintro (⟨b, hb⟩ | ⟨τ, hτ, b, hb⟩)
    · exact ⟨b, (hbinds x b).mpr (.inl hb)⟩
    · exact ⟨b, (hbinds x b).mpr (.inr ⟨τ, hτ, hb⟩)⟩

/-! ### Parts -/

variable {head : Head} {vars : List SequenceVariable} {arguments : List Term}

/-- The binding of a variable tells which run it has got. -/
def Tells (head : Head) (arguments : List Term) (var : SequenceVariable) : Prop :=
  var.name.isSome = true ∧ ∀ run other : List Term, (∀ t ∈ run, t ∈ arguments) →
    (∀ t ∈ other, t ∈ arguments) → runBinding head var run = runBinding head var other →
      run.Perm other

/-- Terms of a part are among those that are shared out. -/
theorem mem_of_mem_shares {parts : List (List Term)}
    (hlength : vars.length = parts.length) {run : List Term} (hrun : run ∈ parts) {t : Term}
    (ht : t ∈ run) : t ∈ shares vars parts := by
  obtain ⟨i, hi, rfl⟩ := List.getElem_of_mem hrun
  have hvar : i < vars.length := hlength ▸ hi
  refine List.mem_flatMap.mpr ⟨(vars[i], parts[i]), ?_, ?_⟩
  · exact List.mem_iff_getElem.mpr ⟨i, by simp [hi, hvar], by simp⟩
  · refine List.mem_flatten.mpr ⟨parts[i], ?_, ht⟩
    rw [List.mem_replicate]
    exact ⟨by omega, rfl⟩

/-- **The bindings of the variables tell the parts.** -/
theorem parts_eq_of_below (htells : ∀ var ∈ vars, Tells head arguments var)
    {parts others : List (List Term)} {leftover : List Term}
    (hsub : ∀ t ∈ leftover, t ∈ arguments) (hparts : IsPartition leftover vars parts)
    (hothers : IsPartition leftover vars others) {ρ : Substitution}
    (h : ∀ x b, (x, b) ∈ runBindings head vars parts → ρ.find? x = some b)
    (h' : ∀ x b, (x, b) ∈ runBindings head vars others → ρ.find? x = some b) : parts = others := by
  have hmem : ∀ {runs : List (List Term)}, IsPartition leftover vars runs →
      ∀ run ∈ runs, ∀ t ∈ run, t ∈ arguments := fun hruns run hrun t ht =>
    hsub t (hruns.perm.mem_iff.mpr
      (mem_of_mem_shares hruns.admitted.length_eq hrun ht))
  have hpartsMem := hmem hparts
  have hothersMem := hmem hothers
  have hadmitted := hparts.admitted
  have hadmitted' := hothers.admitted
  clear hmem hparts hothers hsub
  -- Variable by variable: the binding tells which terms a part has, and parts are sorted.
  induction hadmitted generalizing others with
  | nil => exact (List.forall₂_nil_left_iff.mp hadmitted').symm
  | @cons var run vars parts hrun hadmitted ih =>
    obtain ⟨other, others, hother, hmore, rfl⟩ := List.forall₂_cons_left_iff.mp hadmitted'
    obtain ⟨hnamed, htell⟩ := htells var List.mem_cons_self
    obtain ⟨name, hname⟩ := Option.isSome_iff_exists.mp hnamed
    have hcons : ∀ (run : List Term) (parts : List (List Term)),
        runBindings head (var :: vars) (run :: parts) =
          (name, runBinding head var run) :: runBindings head vars parts := by
      intro run parts
      simp [runBindings, hname]
    rw [hcons] at h h'
    have hsame : runBinding head var run = runBinding head var other := by
      have hfirst := h name _ List.mem_cons_self
      rw [h' name _ List.mem_cons_self] at hfirst
      exact (Option.some.inj hfirst).symm
    have hperm := htell run other (hpartsMem run List.mem_cons_self)
      (hothersMem other List.mem_cons_self) hsame
    have hruns : run = other :=
      hperm.eq_of_pairwise (fun s t _ _ => Term.le_antisymm) hrun.1 hother.1
    have hrest := ih (fun v hv => htells v (List.mem_cons_of_mem _ hv))
      (fun x b hb => h x b (List.mem_cons_of_mem _ hb))
      (fun x b hb => h' x b (List.mem_cons_of_mem _ hb))
      (fun r hr => hpartsMem r (List.mem_cons_of_mem _ hr))
      (fun r hr => hothersMem r (List.mem_cons_of_mem _ hr)) hmore
    rw [hruns, hrest]

/-- **No match of a pairing is found twice.** -/
theorem nodup_outcomes (htells : ∀ var ∈ vars, Tells head arguments var)
    (hnodup : ∀ pair ∈ pairs, (ways pair.1 pair.2).Nodup)
    (hnames : ∀ pair ∈ pairs, ∀ τ ∈ ways pair.1 pair.2, ∀ x, τ.Binds x ↔ x ∈ names pair.1)
    (σ : Substitution) : (outcomes head vars arguments ways σ pairs).Nodup := by
  have hholds : ∀ {union ρ : Substitution} {partition : List (List Term)},
      bindVariables? head union vars partition = some ρ →
        union.Below ρ ∧ ∀ x b, (x, b) ∈ runBindings head vars partition → ρ.find? x = some b := by
    intro union ρ partition h
    have hiff := Substitution.bindAll?_eq_some_iff.mp h
    exact ⟨fun x b hb => (hiff x b).mpr (.inl hb), fun x b hb => (hiff x b).mpr (.inr hb)⟩
  refine nodup_flatMap_of (nodup_partitions _ _) (fun partition _ => ?_)
    fun parts hparts others hothers ρ hρ hρ' => ?_
  · refine nodup_filterMap_of (nodup_unionPairs hnodup hnames σ)
      fun union hunion other hother ρ hρ hρ' => ?_
    refine (hholds hρ).1.eq_of_binds (hholds hρ').1 fun x => ?_
    rw [binds_of_mem_unionPairs hunion hnames, binds_of_mem_unionPairs hother hnames]
  -- Different partitions bind the sequence variables to different parts.
  · obtain ⟨union, -, hbind⟩ := List.mem_filterMap.mp hρ
    obtain ⟨other, -, hbind'⟩ := List.mem_filterMap.mp hρ'
    exact parts_eq_of_below htells (fun t ht => List.diff_subset _ _ ht)
      (mem_partitions_iff.mp hparts) (mem_partitions_iff.mp hothers) (hholds hbind).2
      (hholds hbind').2

/-! ### All matches -/

variable {pattern : CommutativePattern} {found : Term → List (Nat × Substitution)}

/-- Behind an outcome there is one way for each pair, and each way is below the outcome. -/
theorem exists_ways_of_mem_outcomes {σ ρ : Substitution}
    (h : ρ ∈ outcomes head vars arguments ways σ pairs) :
    ∃ τs, List.Forall₂ (fun pair τ => τ ∈ ways pair.1 pair.2) pairs τs ∧
      ∀ τ ∈ τs, τ.Below ρ := by
  obtain ⟨partition, -, h⟩ := List.mem_flatMap.mp h
  obtain ⟨union, hunion, hbind⟩ := List.mem_filterMap.mp h
  obtain ⟨τs, hτs, hbinds⟩ := mem_unionPairs_iff.mp hunion
  refine ⟨τs, hτs, fun τ hτ x b hb => ?_⟩
  exact (Substitution.bindAll?_eq_some_iff.mp hbind x b).mpr
    (.inl ((hbinds x b).mpr (.inr ⟨τ, hτ, hb⟩)))

/-- Slot by slot, the ways tell the arguments. -/
theorem arguments_eq_of_ways {operands : List Nat} {ts us : List Term} {ρ : Substitution}
    (htell : ∀ o ∈ operands, ∀ t ∈ ts, ∀ u ∈ us, ∀ τ ∈ ways o t, ∀ υ ∈ ways o u,
      τ.Below ρ → υ.Below ρ → t = u)
    (hts : ts.length = operands.length) (hus : us.length = operands.length)
    {τs υs : List Substitution}
    (hτs : List.Forall₂ (fun pair τ => τ ∈ ways pair.1 pair.2) (operands.zip ts) τs)
    (hυs : List.Forall₂ (fun pair τ => τ ∈ ways pair.1 pair.2) (operands.zip us) υs)
    (hτ : ∀ τ ∈ τs, τ.Below ρ) (hυ : ∀ υ ∈ υs, υ.Below ρ) : ts = us := by
  induction operands generalizing ts us τs υs with
  | nil => rw [List.length_eq_zero_iff.mp hts, List.length_eq_zero_iff.mp hus]
  | cons o operands ih =>
    obtain ⟨t, ts, rfl⟩ := List.exists_cons_of_length_eq_add_one hts
    obtain ⟨u, us, rfl⟩ := List.exists_cons_of_length_eq_add_one hus
    rw [List.zip_cons_cons] at hτs hυs
    obtain ⟨τ, τs, hfirst, hτs', rfl⟩ := List.forall₂_cons_left_iff.mp hτs
    obtain ⟨υ, υs, hfirst', hυs', rfl⟩ := List.forall₂_cons_left_iff.mp hυs
    have hsame := htell o List.mem_cons_self t List.mem_cons_self u List.mem_cons_self τ hfirst υ
      hfirst' (hτ τ List.mem_cons_self) (hυ υ List.mem_cons_self)
    have hrest := ih (fun o ho t ht u hu => htell o (List.mem_cons_of_mem _ ho) t
        (List.mem_cons_of_mem _ ht) u (List.mem_cons_of_mem _ hu))
      (Nat.succ.inj hts) (Nat.succ.inj hus) hτs' hυs'
      (fun τ h => hτ τ (List.mem_cons_of_mem _ h)) fun υ h => hυ υ (List.mem_cons_of_mem _ h)
    rw [hsame, hrest]

/-- **No match is found twice,** if the ways for an argument are different, bind the variables
    of the operand, and tell the argument. -/
theorem nodup_matchSorted (names : Nat → List String)
    (hoperands : pattern.operands.Pairwise (· ≤ ·))
    (harguments : arguments.Pairwise (fun s t => s.le t = true))
    (htells : ∀ var ∈ pattern.sequenceVars, Tells head arguments var)
    (hnodup : ∀ o ∈ pattern.operands, ∀ t ∈ arguments, (waysOf found o t).Nodup)
    (hnames : ∀ o ∈ pattern.operands, ∀ t ∈ arguments, ∀ τ ∈ waysOf found o t,
      ∀ x, τ.Binds x ↔ x ∈ names o)
    (hargument : ∀ o ∈ pattern.operands, ∀ s ∈ arguments, ∀ t ∈ arguments,
      ∀ τ, τ ∈ waysOf found o s → τ ∈ waysOf found o t → s = t) (σ : Substitution) :
    (pattern.matchSorted head arguments (arguments.map found) σ).Nodup := by
  have hchosen : ∀ f, ∀ t ∈ chosen arguments f, t ∈ arguments := by
    intro f t ht
    obtain ⟨r, -, hr⟩ := List.mem_filterMap.mp ht
    exact List.mem_of_getElem? hr
  have hpairs : ∀ f, ∀ pair ∈ assignedPairs pattern arguments f,
      pair.1 ∈ pattern.operands ∧ pair.2 ∈ arguments := fun f pair hpair =>
    ⟨(List.of_mem_zip hpair).1, hchosen f _ (List.of_mem_zip hpair).2⟩
  rw [matchSorted_eq]
  refine nodup_flatMap_of nodup_matchings (fun f _ => ?_) fun f hf g hg ρ hρ hρ' => ?_
  · have hbinds : ∀ pair ∈ assignedPairs pattern arguments f, ∀ τ ∈ waysOf found pair.1 pair.2,
        ∀ x, τ.Binds x ↔ x ∈ names pair.1 := fun pair hpair =>
      hnames _ (hpairs f pair hpair).1 _ (hpairs f pair hpair).2
    exact nodup_outcomes htells (fun pair hpair =>
      hnodup _ (hpairs f pair hpair).1 _ (hpairs f pair hpair).2) hbinds σ
  · obtain ⟨τs, hτs, hτ⟩ := exists_ways_of_mem_outcomes hρ
    obtain ⟨υs, hυs, hυ⟩ := exists_ways_of_mem_outcomes hρ'
    suffices hsame : chosen arguments f = chosen arguments g by
      refine matching_unique hoperands harguments hf hg (.of_eq ?_)
      rw [assignedPairs, assignedPairs, hsame]
    refine arguments_eq_of_ways (fun o ho t ht u hu τ hτ υ hυ hbelow hbelow' => ?_)
      (length_chosen (isAssignment_of_mem_matchings hf))
      (length_chosen (isAssignment_of_mem_matchings hg)) hτs hυs hτ hυ
    have ht := hchosen f t ht
    have hu := hchosen g u hu
    have hsame : τ = υ := hbelow.eq_of_binds hbelow' fun x => by
      rw [hnames o ho t ht τ hτ, hnames o ho u hu υ hυ]
    exact hargument o ho t ht u hu τ hτ (hsame ▸ hυ)

end CommutativePattern

end TermNet
