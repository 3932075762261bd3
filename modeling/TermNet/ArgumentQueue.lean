import TermNet.Term.Basic

namespace TermNet

/-!
# Argument queues — the subject as it is consumed

A matcher reads a subject from left to right.  Entering an operation opens a
level with its arguments, closing it needs that level to be used up.  Whatever a
step consumes is put back when the matcher is done with what follows it, so that
the next alternative sees the queue as it was.

* `ArgumentQueue` — the level of the subject and the open levels above it;
* `takeIf?`, `enter?`, `close?`, `takeRun?`, `grow?` — steps that consume;
* `Guard`, `Guard.release` — what a step has consumed, and putting it back.

Each step has its own way back, which only looks at the innermost level: an
argument goes back to the front, an entered level is dropped, a closed level is
reopened empty, and a run goes back in front in its order.
-/

/-- The arguments that are still to be consumed, level by level. -/
structure ArgumentQueue where
  /-- The level of the subject itself. -/
  root : List Term
  /-- The levels of the entered operations, the innermost first. -/
  nested : List (List Term) := []
deriving DecidableEq, Repr, Inhabited

namespace ArgumentQueue

/-- The queue of one subject. -/
def ofSubject (subject : Term) : ArgumentQueue := { root := [subject] }

/-- The innermost level. -/
def level (queue : ArgumentQueue) : List Term :=
  match queue.nested with
  | [] => queue.root
  | innermost :: _ => innermost

/-- Replace the innermost level. -/
def withLevel (queue : ArgumentQueue) (terms : List Term) : ArgumentQueue :=
  match queue.nested with
  | [] => { queue with root := terms }
  | _ :: outer => { queue with nested := terms :: outer }

/-- Number of entered operations that are not closed. -/
def depth (queue : ArgumentQueue) : Nat := queue.nested.length

/-- Number of arguments left on the innermost level. -/
def remaining (queue : ArgumentQueue) : Nat := queue.level.length

/-- The next argument. -/
def front? (queue : ArgumentQueue) : Option Term := queue.level.head?

/-- Whether the whole subject is consumed and every operation closed. -/
def isExhausted (queue : ArgumentQueue) : Bool := queue.nested.isEmpty && queue.root.isEmpty

/-! ### Steps -/

/-- Consume the next argument if `accept` admits it. -/
def takeIf? (queue : ArgumentQueue) (accept : Term → Bool) : Option (Term × ArgumentQueue) :=
  match queue.level with
  | item :: rest => if accept item then some (item, queue.withLevel rest) else none
  | [] => none

/-- Consume the next argument if it is an operation with this head, and open a
    level with its arguments. -/
def enter? (queue : ArgumentQueue) (head : Head) : Option (Term × ArgumentQueue) :=
  match queue.level with
  | item :: rest =>
    if item.hasHead head then
      let outer := queue.withLevel rest
      some (item, { outer with nested := item.args :: outer.nested })
    else none
  | [] => none

/-- Leave the innermost operation, once its arguments are used up. -/
def close? (queue : ArgumentQueue) : Option ArgumentQueue :=
  match queue.nested with
  | [] :: outer => some { queue with nested := outer }
  | _ => none

/-- Consume `count` arguments at once. -/
def takeRun? (queue : ArgumentQueue) (count : Nat) : Option (List Term × ArgumentQueue) :=
  if queue.remaining < count then none
  else some (queue.level.take count, queue.withLevel (queue.level.drop count))

/-- Consume one more argument for a run. -/
def grow? (queue : ArgumentQueue) (run : List Term) : Option (List Term × ArgumentQueue) :=
  match queue.level with
  | item :: rest => some (run ++ [item], queue.withLevel rest)
  | [] => none

/-! ### Ways back -/

/-- Put arguments back in front of the innermost level. -/
def giveBack (queue : ArgumentQueue) (terms : List Term) : ArgumentQueue :=
  queue.withLevel (terms ++ queue.level)

/-- Drop the innermost level, without looking at it. -/
def dropLevel (queue : ArgumentQueue) : ArgumentQueue :=
  { queue with nested := queue.nested.tail }

/-- What a step has consumed. -/
inductive Guard where
  /-- One argument. -/
  | taken (item : Term)
  /-- An operation whose arguments became a level. -/
  | entered (item : Term)
  /-- A level that was used up. -/
  | closed
  /-- A run of arguments. -/
  | run (terms : List Term)
deriving DecidableEq, Repr

/-- Put back what a step has consumed. -/
def Guard.release : Guard → ArgumentQueue → ArgumentQueue
  | taken item, queue => queue.giveBack [item]
  | entered item, queue => queue.dropLevel.giveBack [item]
  | closed, queue => { queue with nested := [] :: queue.nested }
  | run terms, queue => queue.giveBack terms

end ArgumentQueue

end TermNet
