import TermNet.Proofs.Structure

namespace TermNet

/-!
# Guards put the arguments back

A step that consumes arguments leaves a guard, and dropping the guard only looks at the
innermost level of the queue.  That this is the right level is a matter of discipline: guards
are dropped in the reverse of the order in which they were opened, and only the run of the
innermost guard grows.

* `Session`, `Session.act?` — a queue with its open guards, and what can be done with it;
* `Session.downTo` — dropping guards until so many are left, with the same result before and
  after every action inside of them (`downTo_act`, `downTo_run`);
* `State.restores` — a walk puts back what it has consumed, from whatever state it starts;
* `guards_restore_the_queue` — the result.
-/

namespace ArgumentQueue

/-- A step that leaves a guard if it is granted. -/
inductive Request where
  | takeIf (accept : Term → Bool)
  | enter (head : Head)
  | close
  | takeRun (count : Nat)

/-- What a step consumes, and the queue without it. -/
def Request.grant? : Request → ArgumentQueue → Option (Guard × ArgumentQueue)
  | takeIf accept, queue => (queue.takeIf? accept).map fun (item, rest) => (.taken item, rest)
  | enter head, queue => (queue.enter? head).map fun (item, inner) => (.entered item, inner)
  | close, queue => queue.close?.map fun outer => (.closed, outer)
  | takeRun count, queue => (queue.takeRun? count).map fun (terms, rest) => (.run terms, rest)

/-- When a step is refused. -/
def Request.Refused : Request → ArgumentQueue → Prop
  | takeIf accept, queue => ∀ item ∈ queue.front?, accept item = false
  | enter head, queue => ∀ item ∈ queue.front?, item.hasHead head = false
  | close, queue => queue.nested.head? ≠ some []
  | takeRun count, queue => queue.remaining < count

/-- One more argument for a guard that holds a run. -/
def Guard.grow? : Guard → ArgumentQueue → Option (Guard × ArgumentQueue)
  | run terms, queue => (queue.grow? terms).map fun (longer, rest) => (.run longer, rest)
  | _, _ => none

variable {queue rest : ArgumentQueue} {request : Request} {guard longer : Guard}

/-- **A guard puts back what its step has consumed,** if it is dropped at once. -/
theorem Request.release_grant? (h : request.grant? queue = some (guard, rest)) :
    guard.release rest = queue := by
  cases request with
  | takeIf accept =>
    obtain ⟨⟨item, after⟩, htake, heq⟩ := Option.map_eq_some_iff.mp h
    obtain ⟨rfl, rfl⟩ := Prod.mk.inj heq
    exact release_taken htake
  | enter head =>
    obtain ⟨⟨item, inner⟩, henter, heq⟩ := Option.map_eq_some_iff.mp h
    obtain ⟨rfl, rfl⟩ := Prod.mk.inj heq
    exact release_entered henter
  | close =>
    obtain ⟨outer, hclose, heq⟩ := Option.map_eq_some_iff.mp h
    obtain ⟨rfl, rfl⟩ := Prod.mk.inj heq
    exact (close?_eq_some hclose).symm
  | takeRun count =>
    obtain ⟨⟨terms, after⟩, htake, heq⟩ := Option.map_eq_some_iff.mp h
    obtain ⟨rfl, rfl⟩ := Prod.mk.inj heq
    exact release_run htake

/-- A longer run is put back where the shorter one is. -/
theorem Guard.release_grow? (h : guard.grow? queue = some (longer, rest)) :
    longer.release rest = guard.release queue := by
  cases guard with
  | run terms =>
    obtain ⟨⟨more, after⟩, hgrow, heq⟩ := Option.map_eq_some_iff.mp h
    obtain ⟨rfl, rfl⟩ := Prod.mk.inj heq
    exact release_grow hgrow
  | taken item => exact absurd h (by simp [Guard.grow?])
  | entered item => exact absurd h (by simp [Guard.grow?])
  | closed => exact absurd h (by simp [Guard.grow?])

/-- When a request is refused. -/
theorem Request.grant?_eq_none_iff : request.grant? queue = none ↔ request.Refused queue := by
  cases request with
  | takeIf accept =>
    simp only [grant?, Refused, Option.map_eq_none_iff, takeIf?, front?]
    cases queue.level <;> simp
  | enter head =>
    simp only [grant?, Refused, Option.map_eq_none_iff, enter?, front?]
    cases queue.level <;> simp
  | close =>
    simp only [grant?, Refused, Option.map_eq_none_iff, close?]
    obtain ⟨root, nested⟩ := queue
    rcases nested with _ | ⟨_ | ⟨item, terms⟩, outer⟩ <;> simp
  | takeRun count =>
    simp only [grant?, Refused, Option.map_eq_none_iff, takeRun?]
    simp

/-- A run cannot grow if the innermost level is used up, and only runs grow. -/
theorem Guard.grow?_eq_none_iff :
    guard.grow? queue = none ↔ (∀ terms, guard ≠ .run terms) ∨ queue.level = [] := by
  cases guard with
  | run terms =>
    simp only [Guard.grow?, Option.map_eq_none_iff, ArgumentQueue.grow?]
    cases queue.level <;> simp
  | taken item => simp [Guard.grow?]
  | entered item => simp [Guard.grow?]
  | closed => simp [Guard.grow?]

end ArgumentQueue

/-! ### Sessions -/

open ArgumentQueue (Request Guard)

/-- **A queue in use,** with the guards that are open on it, the innermost first. -/
structure Session where
  queue : ArgumentQueue
  guards : List Guard := []
deriving DecidableEq, Repr

/-- What can be done with a queue in use. -/
inductive Session.Action where
  /-- Open a guard. -/
  | ask (request : Request)
  /-- Take one more argument for the run of the innermost guard. -/
  | grow
  /-- Drop the innermost guard. -/
  | drop

namespace Session

/-- The queue of a subject, with no guard open. -/
def ofSubject (subject : Term) : Session := { queue := .ofSubject subject }

/-- **What comes of an action,** unless it is refused. -/
def act? (s : Session) : Action → Option Session
  | .ask request => (request.grant? s.queue).map fun (guard, rest) => ⟨rest, guard :: s.guards⟩
  | .grow =>
    match s.guards with
    | guard :: outer => (guard.grow? s.queue).map fun (longer, rest) => ⟨rest, longer :: outer⟩
    | [] => none
  | .drop =>
    match s.guards with
    | guard :: outer => some ⟨guard.release s.queue, outer⟩
    | [] => none

/-- An action that is refused changes nothing. -/
def act (s : Session) (action : Action) : Session := (s.act? action).getD s

/-- One action after the other. -/
def run (s : Session) (actions : List Action) : Session := actions.foldl act s

/-- When an action is refused. -/
def Refuses (s : Session) : Action → Prop
  | .ask request => request.Refused s.queue
  | .grow => (∀ terms, s.guards.head? ≠ some (.run terms)) ∨ s.queue.level = []
  | .drop => s.guards = []

/-- Drop guards until so many are left. -/
def unwind (depth : Nat) : List Guard → ArgumentQueue → Session
  | [], queue => ⟨queue, []⟩
  | guard :: outer, queue =>
    if depth ≤ outer.length then unwind depth outer (guard.release queue)
    else ⟨queue, guard :: outer⟩

/-- **What is left when the guards above a certain depth are dropped,** innermost first. -/
def downTo (s : Session) (depth : Nat) : Session := unwind depth s.guards s.queue

variable {s t : Session} {action : Action} {depth : Nat}

/-- When an action is refused. -/
theorem act?_eq_none_iff : s.act? action = none ↔ s.Refuses action := by
  obtain ⟨queue, guards⟩ := s
  cases action with
  | ask request =>
    simp only [act?, Refuses, Option.map_eq_none_iff]
    exact Request.grant?_eq_none_iff
  | grow =>
    cases guards with
    | nil => simp [act?, Refuses]
    | cons guard outer =>
      simp only [act?, Refuses, Option.map_eq_none_iff, List.head?_cons, Option.some.injEq, ne_eq]
      exact Guard.grow?_eq_none_iff
  | drop => cases guards <;> simp [act?, Refuses]

/-- **What an action can do:** open a guard, change the innermost one or drop it; dropping gives
    back what it has consumed. -/
theorem act?_cases (h : s.act? action = some t) :
    (∃ guard, t.guards = guard :: s.guards ∧ guard.release t.queue = s.queue) ∨
    (∃ guard longer outer, s.guards = guard :: outer ∧ t.guards = longer :: outer ∧
      longer.release t.queue = guard.release s.queue) ∨
    ∃ guard outer, s.guards = guard :: outer ∧ t = ⟨guard.release s.queue, outer⟩ := by
  obtain ⟨queue, guards⟩ := s
  cases action with
  | ask request =>
    obtain ⟨⟨guard, rest⟩, hgrant, rfl⟩ := Option.map_eq_some_iff.mp h
    exact .inl ⟨guard, rfl, Request.release_grant? hgrant⟩
  | grow =>
    cases guards with
    | nil => exact absurd h (by simp [act?])
    | cons guard outer =>
      obtain ⟨⟨longer, rest⟩, hgrow, rfl⟩ := Option.map_eq_some_iff.mp h
      exact .inr (.inl ⟨guard, longer, outer, rfl, rfl, Guard.release_grow? hgrow⟩)
  | drop =>
    cases guards with
    | nil => exact absurd h (by simp [act?])
    | cons guard outer => exact .inr (.inr ⟨guard, outer, rfl, (Option.some.inj h).symm⟩)

/-! ### Dropping down to a depth -/

/-- Dropping the innermost guard is the first step down. -/
theorem downTo_cons {guard : Guard} {outer : List Guard} {queue : ArgumentQueue}
    (h : depth ≤ outer.length) :
    downTo ⟨queue, guard :: outer⟩ depth = downTo ⟨guard.release queue, outer⟩ depth :=
  if_pos h

/-- Nothing is dropped if no more guards are open. -/
theorem downTo_length (s : Session) : s.downTo s.guards.length = s := by
  obtain ⟨queue, guards⟩ := s
  cases guards with
  | nil => rfl
  | cons guard outer => exact if_neg (by simp)

/-- Down to one less is dropping the innermost guard. -/
theorem act?_drop (h : s.guards.length = depth + 1) :
    s.act? .drop = some (s.downTo depth) := by
  obtain ⟨queue, guards⟩ := s
  cases guards with
  | nil => simp at h
  | cons guard outer =>
    obtain rfl : depth = outer.length := by simpa using h.symm
    rw [downTo_cons le_rfl, downTo_length ⟨guard.release queue, outer⟩]
    rfl

/-- A guard that was just opened gives everything back. -/
theorem downTo_ask {request : Request} (h : s.act? (.ask request) = some t) :
    t.downTo s.guards.length = s := by
  obtain ⟨⟨guard, rest⟩, hgrant, rfl⟩ := Option.map_eq_some_iff.mp h
  rw [downTo_cons le_rfl, Request.release_grant? hgrant]
  exact s.downTo_length

/-- **One action** does not change what is left when the guards around it are dropped: a new
    guard gives back what it has taken, and a run that has grown gives back all of it.  At
    depth 0 there is no guard that the action could drop too many of. -/
theorem downTo_act? (h : s.act? action = some t) (hdepth : depth = 0 ∨ depth < s.guards.length) :
    t.downTo depth = s.downTo depth := by
  obtain ⟨queue, guards⟩ := s
  obtain ⟨after, left⟩ := t
  obtain ⟨guard, rfl, hrelease⟩ | ⟨guard, longer, outer, rfl, rfl, hrelease⟩ |
    ⟨guard, outer, rfl, heq⟩ := act?_cases h
  · rw [downTo_cons (hdepth.elim (by omega) Nat.le_of_lt), hrelease]
  · have hle : depth ≤ outer.length := hdepth.elim (by omega) Nat.le_of_lt_succ
    rw [downTo_cons hle, downTo_cons hle, hrelease]
  · have hle : depth ≤ outer.length := hdepth.elim (by omega) Nat.le_of_lt_succ
    rw [heq, downTo_cons hle]

/-- **One action above a depth** makes no difference to what is left when everything above it is
    dropped. -/
theorem downTo_act (action : Action) (hdepth : depth = 0 ∨ depth < s.guards.length) :
    (s.act action).downTo depth = s.downTo depth := by
  unfold act
  cases h : s.act? action with
  | none => rfl
  | some t => exact downTo_act? h hdepth

/-- **A whole run** inside of guards does not change what is left when they are dropped. -/
theorem downTo_run (actions : List Action) (hkept : depth = 0 ∨
      ∀ n ≤ actions.length, depth < (s.run (actions.take n)).guards.length) :
    (s.run actions).downTo depth = s.downTo depth := by
  induction actions generalizing s with
  | nil => rfl
  | cons action rest ih =>
    have hfirst : depth = 0 ∨ depth < s.guards.length :=
      hkept.imp_right fun h => h 0 (Nat.zero_le _)
    have hrest : depth = 0 ∨
        ∀ n ≤ rest.length, depth < ((s.act action).run (rest.take n)).guards.length :=
      hkept.imp_right fun h n hn => h (n + 1) (Nat.succ_le_succ hn)
    exact (ih hrest).trans (downTo_act action hfirst)

end Session

/-! ### Walks -/

/-- The walk leaves the queue as it was. -/
def Walk.Restores (walk : Walk) : Prop :=
  ∀ queue subst active, (walk queue subst active).2 = queue

namespace Walk.Restores

variable {walk other : Walk}

/-- A walk that finds nothing leaves the queue alone. -/
theorem nothing : Walk.nothing.Restores := fun _ _ _ => rfl

/-- One walk after another restores the queue twice. -/
theorem andThen (h : walk.Restores) (hother : other.Restores) : (walk.andThen other).Restores := by
  intro queue subst active
  exact (hother _ subst active).trans (h queue subst active)

/-- Checking constraints does not touch the queue. -/
theorem proceed (h : walk.Restores) (registry : ConstraintRegistry) (patterns : List Nat)
    (constraints : List ConstraintId) :
    (TermNet.proceed registry patterns constraints walk).Restores := by
  intro queue subst active
  unfold TermNet.proceed
  dsimp only
  split
  · exact h queue subst _
  · rfl

/-- What an edge consumes is put back, if going on behind it puts back what it consumes. -/
theorem consume (h : walk.Restores) (name : Option String) (label : Label) :
    (label.consume name walk).Restores := by
  intro queue subst active
  -- Commutative operations and their branches consume nothing here, they have walks of their own.
  by_cases hcommutative : ∃ head, label = .commutative head
  · obtain ⟨head, rfl⟩ := hcommutative
    rfl
  · by_cases hoperands : ∃ index, label = .operands index
    · obtain ⟨index, rfl⟩ := hoperands
      rfl
    · have hfinds : walk.FindsAt active (fun place => (walk place.queue place.subst active).1)
          (label.advance none name ⟨queue, subst⟩) :=
        fun place _ => Prod.ext rfl (h place.queue place.subst active)
      have hconsume := consume_eq (fun head heq => hcommutative ⟨head, heq⟩)
        (fun index heq => hoperands ⟨index, heq⟩) hfinds
      exact congrArg Prod.snd hconsume

/-- An operation is put back when all its matches have been walked on from. -/
theorem commutative {branch : Nat → Walk} (h : ∀ index, (branch index).Restores) (head : Head)
    (matcher : Option OperandMatcher) (branches : List Edge) :
    (walkCommutative head matcher branches branch).Restores := by
  intro queue subst active
  cases matcher with
  | none => rw [walkCommutative_of_none (.inl rfl)]
  | some m =>
    cases htake : queue.takeIf? (·.hasHead head) with
    | none => rw [walkCommutative_of_none (.inr htake)]
    | some taken =>
      obtain ⟨item, rest⟩ := taken
      let results := fun found : Match => (branch found.1 rest found.2 active).1
      have hresults : ∀ found ∈ matchCommutative m item.args subst (wantedPatterns branches active),
          branch found.1 rest found.2 active = (results found, rest) :=
        fun found _ => Prod.ext rfl (h found.1 rest found.2 active)
      rw [walkCommutative_of_some htake hresults]

end Walk.Restores

variable {registry : ConstraintRegistry} {matchers : List OperandMatcher}

/-- The branch of a pattern. -/
theorem restores_walkBranch {branches : List Edge}
    (h : ∀ branch ∈ branches, (branch.target.walk registry matchers).Restores) (index : Nat) :
    (walkBranch registry matchers branches index).Restores := by
  induction branches with
  | nil => exact .nothing
  | cons branch rest ih =>
    obtain ⟨label, name, patterns, constraints, id, target⟩ := branch
    rw [walkBranch]
    split
    · exact (h _ List.mem_cons_self).proceed registry patterns constraints
    · exact ih fun other hother => h other (List.mem_cons_of_mem _ hother)

/-- **One edge,** with what is behind it. -/
theorem restores_walkEdge {edge : Edge} (h : (edge.target.walk registry matchers).Restores)
    (hbranches : ∀ branch ∈ edge.target.edges, (branch.target.walk registry matchers).Restores) :
    (walkEdge registry matchers edge).Restores := by
  obtain ⟨label, name, patterns, constraints, id, target⟩ := edge
  intro queue subst active
  unfold walkEdge
  split
  · split
    · exact Walk.Restores.commutative (restores_walkBranch hbranches) _ _ _ queue subst active
    · exact (h.proceed registry patterns constraints).consume name _ queue subst active
  · rfl

/-- The edges of a state, by induction on them. -/
theorem restores_walkEdges {edges : List Edge}
    (h : ∀ edge ∈ edges, (walkEdge registry matchers edge).Restores) :
    (walkEdges registry matchers edges).Restores := by
  induction edges with
  | nil => exact .nothing
  | cons edge rest ih =>
    exact (h edge List.mem_cons_self).andThen
      (ih fun other hother => h other (List.mem_cons_of_mem _ hother))

/-- **A walk leaves the queue as it was,** from whatever state it starts. -/
theorem State.restores (state : State) : (state.walk registry matchers).Restores := by
  induction state using State.inductionOn with
  | step state ih ihbranches =>
    cases state with
    | branch edges =>
      exact restores_walkEdges fun edge hedge =>
        restores_walkEdge (ih edge hedge) (ihbranches edge hedge)
    | commutative position edges => exact .nothing
    | accept markers =>
      intro queue subst active
      simp only [State.walk]
      split <;> rfl

/-- From an ordinary state of a net of the right shape, checked matching does not stop, and
    leaves the queue as it was. -/
theorem Net.Formed.restores {net : Net} (h : net.Formed) {entry : StateId × State}
    (hentry : entry ∈ net.states)
    (hordinary : ∀ position branches, entry.2 ≠ .commutative position branches)
    (queue : ArgumentQueue) (subst : Substitution) (active : IndexSet) :
    ∃ found,
      entry.2.walk net.registry (operandMatchers net.matchers) queue subst active =
        (found, queue) ∧
      entry.2.walk? net.registry (operandMatchers net.matchers) queue subst active =
        some (found, queue) := by
  obtain ⟨stage, hformed⟩ := h.of_mem_states hentry
  -- Only the state of a commutative operation stands where a branch is chosen.
  have hstage : ∀ depth head, stage ≠ .choosing depth head := by
    rintro depth head rfl
    have hstands := hformed.stands
    cases hstate : entry.2 with
    | branch edges =>
      rw [hstate] at hstands
      exact hstands depth head rfl
    | commutative position branches => exact hordinary position branches hstate
    | accept markers =>
      rw [hstate] at hstands
      exact Stage.noConfusion hstands
  have hwalk : entry.2.walk net.registry (operandMatchers net.matchers) queue subst active =
      ((entry.2.walk net.registry (operandMatchers net.matchers) queue subst active).1, queue) :=
    Prod.ext rfl (entry.2.restores queue subst active)
  exact ⟨_, hwalk, (hformed.agrees hstage queue subst active).trans (congrArg some hwalk)⟩

/-! ### The result -/

/-- **Guards put the arguments back.**  However a queue has come to be in use: when a guard is
    opened, and whatever is done until it is the innermost one again without dropping it,
    dropping it leaves the subject's level, the levels of the entered operations and the guards
    around it as they were before it was opened.  An action is refused in certain cases only, and
    then changes nothing.  So dropping all guards gives back the subject, and matching from any
    ordinary state of a net leaves the queue as it was, at every level and for all bindings and
    active patterns. -/
theorem guards_restore_the_queue :
    (∀ (s opened : Session) (request : Request) (inside : List Session.Action),
      s.act? (.ask request) = some opened →
      (∀ n ≤ inside.length, s.guards.length < (opened.run (inside.take n)).guards.length) →
      (opened.run inside).downTo s.guards.length = s ∧
        ((opened.run inside).guards.length = s.guards.length + 1 →
          (opened.run inside).act? .drop = some s)) ∧
    (∀ (s : Session) (action : Session.Action),
      (s.act? action = none ↔ s.Refuses action) ∧ (s.act? action = none → s.act action = s)) ∧
    (∀ (subject : Term) (actions : List Session.Action),
      ((Session.ofSubject subject).run actions).downTo 0 = .ofSubject subject) ∧
    ∀ patterns : List Pattern, (Net.ofPatterns patterns).AtEveryLevel fun net =>
      ∀ entry ∈ net.states, (∀ position branches, entry.2 ≠ .commutative position branches) →
        ∀ queue subst active, ∃ found,
          entry.2.walk net.registry (operandMatchers net.matchers) queue subst active =
            (found, queue) ∧
          entry.2.walk? net.registry (operandMatchers net.matchers) queue subst active =
            some (found, queue) := by
  refine ⟨fun s opened request inside hopened hkept => ?_, fun s action => ?_,
    fun subject actions => ?_, fun patterns => ?_⟩
  · have hdown : (opened.run inside).downTo s.guards.length = s :=
      (Session.downTo_run inside (.inr hkept)).trans (Session.downTo_ask hopened)
    refine ⟨hdown, fun hlength => ?_⟩
    rw [Session.act?_drop hlength, hdown]
  · refine ⟨Session.act?_eq_none_iff, fun hnone => ?_⟩
    rw [Session.act, hnone, Option.getD_none]
  · exact (Session.downTo_run actions (.inl rfl)).trans (Session.downTo_length _)
  · exact (Net.formed_ofPatterns patterns).atEveryLevel fun net hformed entry hentry hordinary =>
      hformed.restores hentry hordinary

/-- A sum is entered, and a run of its arguments is taken, first one and then both.  Behind the
    sum, which is left meanwhile, there is no other one to be entered. -/
theorem guards_restore_a_sum :
    let entered := (Session.ofSubject (.build .sum [.integer 1, .integer 2])).act
      (.ask (.enter .sum))
    let opened := entered.act (.ask (.takeRun 1))
    let inside : List Session.Action := [.grow, .ask .close, .ask (.enter .sum), .drop]
    (opened.run inside).queue.level = [] ∧ (opened.run inside).act? .drop = some entered := by
  refine ⟨by decide +kernel, (guards_restore_the_queue.1 _ _ (.takeRun 1) _ ?_ ?_).2 ?_⟩
  all_goals decide +kernel

end TermNet
