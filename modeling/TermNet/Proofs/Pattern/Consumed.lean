import TermNet.Proofs.Pattern.Bound
import TermNet.Proofs.Pattern.Shares
import TermNet.Proofs.Pattern.Substitute

namespace TermNet

/-!
# What wildcards take, and what has been consumed

The label of a wildcard takes a run of arguments and binds its variable to what the run
becomes.

* `Label.Takes` — the runs of a label, with their bindings;
* `run_of_mem_growing` — the run that a variable is bound to;
* `takes_of_mem_advance` — what lies between two places is such a run;
* `Label.Takes.exists_mem_advance` — behind each of these runs there is a place.

Behind a tree whose wildcards are named and have no defaults, the bindings turn the tree
back into the arguments that it has consumed: here for wildcards and for ordered arguments.

* `PatternTerm.Definite` — all wildcards are named, none has a default;
* `Place.Rebuilt` — the arguments between two places are those that terms contribute;
* `rebuilt_of_mem_wildcard` — what a wildcard has consumed;
* `rebuilt_of_mem_placesAll` — what ordered arguments have consumed.
-/

section Taking

/-- **What the label of a wildcard takes:** nothing for its default, one term, or a run. -/
inductive Label.Takes : Label → List Term → Binding → Prop
  | skipped {label : Label} {d : Term} (h : label.default? = some d) : Takes label [] (.single d)
  | one {kind : Option SymbolKind} {d : Option Term} {t : Term}
    (h : kind.all t.isSymbolOf = true) : Takes (.one kind d) [t] (.single t)
  | run {minCount : Nat} {wrap : Option Head} {d : Option Term} {ts : List Term}
    (h : (if d.isSome then max minCount 1 else minCount) ≤ ts.length) :
    Takes (.run minCount wrap d) ts (.ofRun ts wrap)

section Labels

variable {kind : Option SymbolKind} {minCount : Nat} {wrap : Option Head} {d : Option Term}
  {ts : List Term} {b : Binding}

/-- A wildcard for one argument takes one of its kind, or nothing if it has a default. -/
theorem Label.takes_one_iff : (Label.one kind d).Takes ts b ↔
    (ts = [] ∧ ∃ t, d = some t ∧ b = .single t) ∨
      ∃ t, ts = [t] ∧ kind.all t.isSymbolOf = true ∧ b = .single t := by
  constructor
  · rintro (h | h)
    · exact .inl ⟨rfl, _, h, rfl⟩
    · exact .inr ⟨_, rfl, h, rfl⟩
  · rintro (⟨rfl, t, rfl, rfl⟩ | ⟨t, rfl, h, rfl⟩)
    · exact .skipped rfl
    · exact .one h

/-- A wildcard for a run takes at least as many arguments as it says, or nothing if it has a
    default. -/
theorem Label.takes_run_iff : (Label.run minCount wrap d).Takes ts b ↔
    (ts = [] ∧ ∃ t, d = some t ∧ b = .single t) ∨
      ((if d.isSome then max minCount 1 else minCount) ≤ ts.length ∧ b = .ofRun ts wrap) := by
  constructor
  · rintro (h | h)
    · exact .inl ⟨rfl, _, h, rfl⟩
    · exact .inr ⟨‹_›, rfl⟩
  · rintro (⟨rfl, t, rfl, rfl⟩ | ⟨h, rfl⟩)
    · exact .skipped rfl
    · exact .run h

/-- A label without a default takes one term. -/
theorem Label.Takes.exists_term (h : (Label.one kind none).Takes ts b) :
    ∃ t, ts = [t] ∧ kind.all t.isSymbolOf = true ∧ b = .single t :=
  (Label.takes_one_iff.mp h).resolve_left fun ⟨_, _, hnone, _⟩ => Option.some_ne_none _ hnone.symm

/-- A label without a default takes a run. -/
theorem Label.Takes.eq_ofRun (h : (Label.run minCount wrap none).Takes ts b) :
    minCount ≤ ts.length ∧ b = .ofRun ts wrap :=
  (Label.takes_run_iff.mp h).resolve_left fun ⟨_, _, hnone, _⟩ => Option.some_ne_none _ hnone.symm

end Labels

variable {place after : Place} {υ : Substitution}

/-- Arguments that lie between two places. -/
def Place.Consumed (place after : Place) (ts : List Term) : Prop :=
  ∃ rest, place.queue.level = ts ++ rest ∧ after.queue = place.queue.withLevel rest

/-! ### Between two places -/

/-- Binding a variable leads to one place, if it is not bound to something else. -/
theorem mem_binding_iff {name : String} {value : Binding} :
    after ∈ place.binding (some name) value ↔
      ∃ τ, place.subst.extend? name value = some τ ∧ after = ⟨place.queue, τ⟩ := by
  simp only [Place.binding, List.mem_map, Option.mem_toList]
  exact exists_congr fun τ => and_congr_right fun _ => eq_comm

/-- The value that has been bound. -/
theorem find?_of_mem_binding {name : Option String} {value : Binding}
    (h : after ∈ place.binding name value) :
    after.queue = place.queue ∧ ∀ x, name = some x → after.subst.find? x = some value := by
  cases name with
  | none => exact ⟨List.mem_singleton.mp h ▸ rfl, by simp⟩
  | some x =>
    obtain ⟨τ, hτ, rfl⟩ := mem_binding_iff.mp h
    refine ⟨rfl, fun y hy => ?_⟩
    obtain rfl := Option.some.inj hy
    exact (Substitution.extend?_eq_some_iff.mp hτ x value).mpr (.inr ⟨rfl, rfl⟩)

/-- The places behind a run and behind longer ones. -/
theorem run_of_mem_growing {name : Option String} {wrap : Option Head} {longer : Nat}
    {run : List Term} (h : after ∈ Place.growing name wrap longer run place) :
    ∃ more rest, place.queue.level = more ++ rest ∧ after.queue = place.queue.withLevel rest ∧
      ∀ x, name = some x → after.subst.find? x = some (.ofRun (run ++ more) wrap) := by
  have hhere : ∀ {place : Place} {run : List Term}, after ∈ place.binding name (.ofRun run wrap) →
      ∃ more rest, place.queue.level = more ++ rest ∧ after.queue = place.queue.withLevel rest ∧
        ∀ x, name = some x → after.subst.find? x = some (.ofRun (run ++ more) wrap) := by
    intro place run h
    obtain ⟨hqueue, hfind⟩ := find?_of_mem_binding h
    refine ⟨[], place.queue.level, rfl, ?_, ?_⟩
    · rw [hqueue, ArgumentQueue.withLevel_eq_self]
    · rw [List.append_nil]
      exact hfind
  -- The run may end here, or take the next argument and go on.
  induction longer generalizing place run with
  | zero => exact hhere h
  | succ longer ih =>
    rw [Place.growing, List.mem_append] at h
    rcases h with h | h
    · exact hhere h
    · split at h
      · rename_i longerRun queue hgrow
        obtain ⟨item, rest, hlevel, rfl, rfl⟩ := ArgumentQueue.grow?_eq_some hgrow
        obtain ⟨more, rest', hmore, hqueue, hfind⟩ := ih h
        rw [ArgumentQueue.withLevel_level] at hmore
        rw [ArgumentQueue.withLevel_withLevel] at hqueue
        refine ⟨item :: more, rest', by rw [hlevel, hmore]; rfl, hqueue, ?_⟩
        rw [List.append_assoc] at hfind
        exact hfind
      · simp at h

/-- Where a default is bound, nothing has been consumed. -/
theorem takes_of_mem_skipping (label : Label) {name : Option String}
    (h : after ∈ place.skipping name label.default?) :
    ∃ ts b, label.Takes ts b ∧ place.Consumed after ts ∧
      ∀ x, name = some x → after.subst.find? x = some b := by
  cases hdefault : label.default? with
  | none => simp [hdefault, Place.skipping] at h
  | some d =>
    rw [hdefault] at h
    obtain ⟨hqueue, hfind⟩ := find?_of_mem_binding h
    refine ⟨[], .single d, .skipped hdefault, ⟨place.queue.level, rfl, ?_⟩, hfind⟩
    rw [hqueue, ArgumentQueue.withLevel_eq_self]

/-- **What a wildcard has consumed is a run that its label takes.** -/
theorem takes_of_mem_advance {label : Label} {matcher : Option OperandMatcher}
    {name : Option String}
    (hlabel : (∃ kind d, label = .one kind d) ∨ ∃ minCount wrap d, label = .run minCount wrap d)
    (h : after ∈ label.advance matcher name place) :
    ∃ ts b, label.Takes ts b ∧ place.Consumed after ts ∧
      ∀ x, name = some x → after.subst.find? x = some b := by
  rcases hlabel with ⟨kind, d, rfl⟩ | ⟨minCount, wrap, d, rfl⟩
  · rw [Label.advance, List.mem_append] at h
    rcases h with h | h
    · exact takes_of_mem_skipping (.one kind d) h
    · split at h
      · rename_i item queue htake
        obtain ⟨rest, hlevel, rfl, hitem⟩ := ArgumentQueue.takeIf?_eq_some htake
        obtain ⟨hqueue, hfind⟩ := find?_of_mem_binding h
        exact ⟨[item], .single item, .one hitem, ⟨rest, hlevel, hqueue⟩, hfind⟩
      · simp at h
  · rw [Label.advance, List.mem_append] at h
    rcases h with h | h
    · exact takes_of_mem_skipping (.run minCount wrap d) h
    · split at h
      · rename_i taken queue htake
        obtain ⟨others, htaken, hlength, rfl⟩ := ArgumentQueue.takeRun?_eq_some htake
        obtain ⟨more, rest, hmore, hqueue, hfind⟩ := run_of_mem_growing h
        rw [ArgumentQueue.withLevel_level] at hmore
        rw [ArgumentQueue.withLevel_withLevel] at hqueue
        refine ⟨taken ++ more, _, .run ?_, ⟨rest, ?_, hqueue⟩, hfind⟩
        · rw [List.length_append, hlength]
          exact Nat.le_add_right _ _
        · rw [List.append_assoc, ← hmore, htaken]
      · simp at h

/-! ### Places behind runs -/

/-- Binding a variable as the target does. -/
theorem exists_mem_binding {name : Option String} {value : Binding}
    (hbelow : place.subst.Below υ) (hname : ∀ x, name = some x → υ.find? x = some value) :
    ∃ after ∈ place.binding name value,
      after.queue = place.queue ∧ after.subst.Below υ := by
  cases name with
  | none => exact ⟨place, List.mem_singleton_self _, rfl, hbelow⟩
  | some x =>
    obtain ⟨τ, hτ⟩ := Substitution.exists_extend? hbelow (hname x rfl)
    refine ⟨⟨place.queue, τ⟩, mem_binding_iff.mpr ⟨τ, hτ, rfl⟩, rfl, fun y b hy => ?_⟩
    rcases (Substitution.extend?_eq_some_iff.mp hτ y b).mp hy with hy | ⟨rfl, rfl⟩
    · exact hbelow y b hy
    · exact hname y rfl

/-- Longer runs are among the places behind a run. -/
theorem mem_growing_of_level {name : Option String} {wrap : Option Head} {longer : Nat}
    {run more rest : List Term} (hlevel : place.queue.level = more ++ rest)
    (hlonger : more.length ≤ longer)
    (h : after ∈ Place.binding { place with queue := place.queue.withLevel rest } name
      (.ofRun (run ++ more) wrap)) :
    after ∈ Place.growing name wrap longer run place := by
  -- By induction on what the run still takes; the place behind it is the one where it stops.
  induction more generalizing longer run place with
  | nil =>
    have hplace : place.queue.withLevel rest = place.queue := by
      rw [← show place.queue.level = rest from hlevel, ArgumentQueue.withLevel_eq_self]
    rw [hplace, List.append_nil] at h
    cases longer with
    | zero => exact h
    | succ longer => exact List.mem_append_left _ h
  | cons item more ih =>
    cases longer with
    | zero => simp at hlonger
    | succ longer =>
      have hgrow : place.queue.grow? run =
          some (run ++ [item], place.queue.withLevel (more ++ rest)) := by
        rw [ArgumentQueue.grow?, hlevel]
        rfl
      rw [Place.growing, hgrow]
      refine List.mem_append_right _ (ih ?_ (Nat.le_of_succ_le_succ hlonger) ?_)
      · exact ArgumentQueue.withLevel_level _ _
      · rw [List.append_assoc, ArgumentQueue.withLevel_withLevel]
        exact h

/-- The first term of a level is taken if it is acceptable. -/
theorem takeIf?_of_level {queue : ArgumentQueue} {accept : Term → Bool} {item : Term}
    {rest : List Term} (hlevel : queue.level = item :: rest) (haccept : accept item = true) :
    queue.takeIf? accept = some (item, queue.withLevel rest) := by
  rw [ArgumentQueue.takeIf?, hlevel]
  simp [haccept]

/-- The first terms of a level are taken, as many as wanted. -/
theorem takeRun?_of_level {queue : ArgumentQueue} {taken rest : List Term}
    (hlevel : queue.level = taken ++ rest) :
    queue.takeRun? taken.length = some (taken, queue.withLevel rest) := by
  rw [ArgumentQueue.takeRun?, ArgumentQueue.remaining, hlevel]
  simp

/-- A default is bound as the target does. -/
theorem exists_mem_skipping {name : Option String} {d : Term} {rest : List Term}
    (hlevel : place.queue.level = rest) (hbelow : place.subst.Below υ)
    (hname : ∀ x, name = some x → υ.find? x = some (.single d)) :
    ∃ after ∈ place.skipping name (some d),
      after.queue = place.queue.withLevel rest ∧ after.subst.Below υ := by
  obtain ⟨after, hafter, hqueue, hsubst⟩ := exists_mem_binding hbelow hname
  refine ⟨after, hafter, ?_, hsubst⟩
  rw [hqueue, ← hlevel, ArgumentQueue.withLevel_eq_self]

/-- Behind a run that is long enough there is a place. -/
theorem mem_advance_of_run {minCount : Nat} {wrap : Option Head} {d : Option Term}
    {ts rest : List Term} (hlength : (if d.isSome then max minCount 1 else minCount) ≤ ts.length)
    {matcher : Option OperandMatcher} {name : Option String}
    (hlevel : place.queue.level = ts ++ rest)
    (h : after ∈ Place.binding { place with queue := place.queue.withLevel rest } name
      (.ofRun ts wrap)) :
    after ∈ (Label.run minCount wrap d).advance matcher name place := by
  -- the run begins with the least number of arguments, and grows by the others
  generalize hleast : (if d.isSome then max minCount 1 else minCount) = least at hlength
  have hsplit : ts = ts.take least ++ ts.drop least := (List.take_append_drop _ _).symm
  have htake : place.queue.takeRun? least =
      some (ts.take least, place.queue.withLevel (ts.drop least ++ rest)) := by
    have hlevel' : place.queue.level = ts.take least ++ (ts.drop least ++ rest) := by
      rw [← List.append_assoc, ← hsplit]
      exact hlevel
    have htaken := takeRun?_of_level hlevel'
    rwa [List.length_take, Nat.min_eq_left hlength] at htaken
  rw [Label.advance, hleast, htake]
  refine List.mem_append_right _ (mem_growing_of_level (ArgumentQueue.withLevel_level _ _) ?_ ?_)
  · rw [ArgumentQueue.remaining, ArgumentQueue.withLevel_level, List.length_append]
    exact Nat.le_add_right _ _
  · rw [ArgumentQueue.withLevel_withLevel, ← hsplit]
    exact h

/-- **Behind every run that a label takes** there is a place, where its variable is bound as
    the target binds it. -/
theorem Label.Takes.exists_mem_advance {label : Label} {ts rest : List Term} {b : Binding}
    (h : label.Takes ts b) {matcher : Option OperandMatcher} {name : Option String}
    (hlevel : place.queue.level = ts ++ rest) (hbelow : place.subst.Below υ)
    (hname : ∀ x, name = some x → υ.find? x = some b) :
    ∃ after ∈ label.advance matcher name place,
      after.queue = place.queue.withLevel rest ∧ after.subst.Below υ := by
  let behind : Place := { place with queue := place.queue.withLevel rest }
  have hbehind : behind.subst.Below υ := hbelow
  cases h with
  | @skipped label d hdefault =>
    obtain ⟨after, hafter, hplace⟩ := exists_mem_skipping hlevel hbelow hname
    refine ⟨after, ?_, hplace⟩
    cases label with
    | one kind other =>
      obtain rfl : other = some d := hdefault
      exact List.mem_append_left _ hafter
    | run minCount wrap other =>
      obtain rfl : other = some d := hdefault
      exact List.mem_append_left _ hafter
    | enter head => simp [Label.default?] at hdefault
    | atom t => simp [Label.default?] at hdefault
    | close => simp [Label.default?] at hdefault
    | commutative head => simp [Label.default?] at hdefault
    | operands index => simp [Label.default?] at hdefault
  | one hkind =>
    obtain ⟨after, hafter, hplace⟩ := exists_mem_binding hbehind hname
    refine ⟨after, ?_, hplace⟩
    rw [Label.advance, takeIf?_of_level hlevel hkind]
    exact List.mem_append_right _ hafter
  | run hlength =>
    obtain ⟨after, hafter, hplace⟩ := exists_mem_binding hbehind hname
    exact ⟨after, mem_advance_of_run hlength hlevel hafter, hplace⟩

end Taking

/-! ### What has been consumed -/

/-- All wildcards are named, and none has a default. -/
def PatternTerm.Definite (p : PatternTerm) : Prop :=
  ∀ w ∈ p.wildcards, w.name.isSome = true ∧ w.default = none

/-- What holds of all wildcards of an operation holds of those of its arguments. -/
theorem PatternTerm.Definite.arg {head : Head} {args : List PatternTerm}
    (h : (node head args).Definite) {p : PatternTerm} (hp : p ∈ args) : p.Definite :=
  fun w hw => h w (mem_wildcardsAll.mpr ⟨p, hp, hw⟩)

/-- Renaming variables does not change what wildcards take. -/
theorem PatternTerm.Definite.mapVariables {p : PatternTerm} (h : p.Definite)
    (rename : String → String) : (p.mapVariables rename).Definite := by
  intro w hw
  obtain ⟨v, hv, rfl⟩ := List.mem_map.mp ((wildcards_mapVariables rename p).mem_iff.mp hw)
  obtain ⟨hname, hdefault⟩ := h v hv
  exact ⟨by simpa [Wildcard.renamed] using hname, hdefault⟩

/-- What terms contribute below `parent`. -/
def contributed (parent : Option Head) (ts : List Term) : List Term :=
  match parent with
  | some head => Term.splice head ts
  | none => ts

/-- The subject is canonical where the place is, and the operation around it is ordered. -/
structure Place.Fits (parent : Option Head) (place : Place) : Prop where
  canonical : ∀ t ∈ place.queue.level, t.Canonical
  flat : ∀ head, parent = some head → Term.Flat head place.queue.level
  ordered : ∀ head, parent = some head → head.isCommutative = false

/-- **The arguments between two places** are what `ts` contribute below `parent`. -/
def Place.Rebuilt (parent : Option Head) (place after : Place) (ts : List Term) : Prop :=
  ∃ rest, place.queue.level = contributed parent ts ++ rest ∧
    after.queue = place.queue.withLevel rest

variable {constraints : List Constraint} {parent : Option Head} {place after : Place}

/-- A term that the operation around it does not splice contributes itself. -/
theorem contributed_of_spliced {t : Term}
    (h : ∀ head, parent = some head → Term.spliced head t = [t]) :
    contributed parent [t] = [t] := by
  cases parent with
  | none => rfl
  | some head => exact (Term.splice_singleton head t).trans (h head rfl)

/-- A term of the subject contributes itself: the subject is flat. -/
theorem contributed_singleton (h : place.Fits parent) {t : Term} (ht : t ∈ place.queue.level) :
    contributed parent [t] = [t] :=
  contributed_of_spliced fun head hparent => h.flat head hparent t ht

/-- One argument has been taken. -/
theorem Place.Fits.rebuilt_taken (h : place.Fits parent) {t : Term} {rest : List Term}
    (hlevel : place.queue.level = t :: rest) {σ : Substitution} :
    place.Rebuilt parent ⟨place.queue.withLevel rest, σ⟩ [t] := by
  refine ⟨rest, ?_, rfl⟩
  have ht : t ∈ place.queue.level := by
    rw [hlevel]
    exact List.mem_cons_self
  rw [contributed_singleton h ht, hlevel]
  rfl

/-! ### Wildcards -/

/-- A run that has become one term contributes its arguments. -/
theorem contributed_ofRun (h : place.Fits parent) {run : List Term} {wrap : Option Head}
    (hwrap : wrap = parent.filter Head.isAssociative) (hrun : ∀ t ∈ run, t ∈ place.queue.level) :
    contributed parent (Binding.ofRun run wrap).elements = run := by
  cases parent with
  | none =>
    rw [hwrap]
    rfl
  | some head =>
    have hflat : Term.Flat head run := (h.flat head rfl).sublist hrun
    cases hassoc : head.isAssociative with
    | false =>
      rw [hwrap, Option.filter_some, if_neg (by simp [hassoc])]
      exact Term.splice_of_flat hflat
    | true =>
      rw [hwrap, Option.filter_some, if_pos hassoc, Binding.ofRun]
      cases run with
      | nil => rfl
      | cons t ts =>
        -- The run has been wrapped, and the operation splices it again.
        show Term.splice head [Term.rewrap head (t :: ts)] = t :: ts
        rw [Term.splice_rewrap hassoc hflat,
          Term.arrange_of_not_commutative (h.ordered head rfl)]

/-- The labels of wildcards without defaults. -/
theorem label_wildcardStep_of_definite (parent : Option Head) {w : Wildcard}
    (hdefault : w.default = none) :
    (∃ kind, (wildcardStep parent w).label = .one kind none) ∨
      ∃ minCount, (wildcardStep parent w).label =
        .run minCount (parent.filter Head.isAssociative) none := by
  unfold wildcardStep
  rw [hdefault]
  dsimp only
  split
  · exact .inr ⟨_, rfl⟩
  · rename_i head hwrap
    exact .inr ⟨1, by rw [hwrap]⟩
  · exact .inl ⟨_, rfl⟩

/-- **Behind a wildcard,** its variable is bound to what it has consumed. -/
theorem rebuilt_of_mem_wildcard {w : Wildcard} (hdefinite : (PatternTerm.wildcard w).Definite)
    (hfits : place.Fits parent)
    (h : after ∈ (PatternTerm.wildcard w).places constraints parent place) :
    ∃ ts, (PatternTerm.wildcard w).substituteRun after.subst = some ts ∧
      place.Rebuilt parent after ts := by
  obtain ⟨hname, hdefault⟩ := hdefinite w (List.mem_singleton_self w)
  obtain ⟨x, hx⟩ := Option.isSome_iff_exists.mp hname
  have hsubst : ∀ {b : Binding}, after.subst.find? x = some b →
      (PatternTerm.wildcard w).substituteRun after.subst = some b.elements := by
    intro b hb
    rw [PatternTerm.substituteRun, hx, Option.bind_some, hb, Option.map_some]
  rw [places_wildcard] at h
  rcases label_wildcardStep_of_definite parent hdefault with ⟨kind, hlabel⟩ | ⟨minCount, hlabel⟩
  · rw [hlabel] at h
    obtain ⟨ts, b, htakes, ⟨rest, hlevel, hqueue⟩, hfind⟩ :=
      takes_of_mem_advance (.inl ⟨_, _, rfl⟩) h
    -- One argument, which contributes itself.
    obtain ⟨t, rfl, -, rfl⟩ := htakes.exists_term
    refine ⟨[t], hsubst (hfind x hx), rest, ?_, hqueue⟩
    rw [contributed_singleton hfits (by rw [hlevel]; exact List.mem_cons_self)]
    exact hlevel
  · rw [hlabel] at h
    obtain ⟨ts, b, htakes, ⟨rest, hlevel, hqueue⟩, hfind⟩ :=
      takes_of_mem_advance (.inr ⟨_, _, _, rfl⟩) h
    -- A run; below an associative head it is bound wrapped, and contributes its terms again.
    obtain ⟨-, rfl⟩ := htakes.eq_ofRun
    refine ⟨_, hsubst (hfind x hx), rest, ?_, hqueue⟩
    rw [contributed_ofRun hfits rfl fun t ht => ?_]
    · exact hlevel
    · rw [hlevel]
      exact List.mem_append_left _ ht

/-! ### Ordered arguments -/

/-- What is left of a level that fits still does. -/
theorem Place.Fits.rest (h : place.Fits parent) {ts : List Term}
    (hrebuilt : place.Rebuilt parent after ts) : after.Fits parent := by
  obtain ⟨rest, hlevel, hqueue⟩ := hrebuilt
  have hmem : ∀ t ∈ after.queue.level, t ∈ place.queue.level := by
    intro t ht
    rw [hqueue, ArgumentQueue.withLevel_level] at ht
    rw [hlevel]
    exact List.mem_append_right _ ht
  exact ⟨fun t ht => h.canonical t (hmem t ht), fun head hhead => (h.flat head hhead).sublist hmem,
    h.ordered⟩

/-- What is consumed first and what is consumed later have been consumed in this order. -/
theorem Place.Rebuilt.trans {head : Head} {between : Place} {ss ts : List Term}
    (hfirst : place.Rebuilt (some head) between ss)
    (hrest : between.Rebuilt (some head) after ts) :
    place.Rebuilt (some head) after (ss ++ ts) := by
  obtain ⟨rest, hlevel, hqueue⟩ := hfirst
  obtain ⟨rest', hlevel', hqueue'⟩ := hrest
  rw [hqueue, ArgumentQueue.withLevel_level] at hlevel'
  rw [hqueue, ArgumentQueue.withLevel_withLevel] at hqueue'
  refine ⟨rest', ?_, hqueue'⟩
  show place.queue.level = Term.splice head (ss ++ ts) ++ rest'
  rw [hlevel, hlevel', Term.splice_append, List.append_assoc]
  rfl

/-- **Ordered arguments** are rebuilt one after the other. -/
theorem rebuilt_of_mem_placesAll {head : Head} {args : List PatternTerm}
    (hargs : ∀ p ∈ args, ∀ {place after : Place}, place.Fits (some head) →
      after ∈ p.places constraints (some head) place →
      ∃ ts, p.substituteRun after.subst = some ts ∧ place.Rebuilt (some head) after ts)
    (hfits : place.Fits (some head)) (h : after ∈ placesAll constraints head args place) :
    ∃ ts, PatternTerm.substituteAll after.subst args = some ts ∧
      place.Rebuilt (some head) after ts := by
  induction args generalizing place with
  | nil =>
    rw [List.mem_singleton.mp h]
    exact ⟨[], rfl, place.queue.level, rfl, (ArgumentQueue.withLevel_eq_self _).symm⟩
  | cons p ps ih =>
    obtain ⟨between, hbetween, hafter⟩ := List.mem_flatMap.mp h
    obtain ⟨ss, hss, hfirst⟩ := hargs p List.mem_cons_self hfits hbetween
    obtain ⟨ts, hts, hrest⟩ :=
      ih (fun q hq => hargs q (List.mem_cons_of_mem p hq)) (hfits.rest hfirst) hafter
    -- What the first argument becomes does not change when later ones bind more.
    have hbelow : between.subst.Below after.subst :=
      below_of_mem_placesAll (fun q _ _ _ h => q.below_of_mem_places h) hafter
    have hbinds := p.binds_of_mem_places hbetween
    refine ⟨ss ++ ts, ?_, hfirst.trans hrest⟩
    rw [PatternTerm.substituteAll_cons, p.substituteRun_below hbelow hbinds, hss, hts]
    rfl

end TermNet
