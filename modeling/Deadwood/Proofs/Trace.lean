import Mathlib.Data.Stream.Defs
import Deadwood.Proofs.Pruning

/-! Control flow as traces. A run shows its opaque statements, the conditions it cannot
decide by itself and its jumps; an oracle decides those conditions, and fuel bounds the
iterations of loops. Pruning keeps every trace: `trace_prune`. -/
namespace Deadwood

/-- What a run shows: an opaque statement, a condition the oracle is asked about, what a
`for` runs over, or a jump. -/
inductive Event where
  | ran (statement : Node)
  | tested (condition : Node)
  | ranged (iterable : Node)
  | jumped (jump : Node)

inductive Completion where
  | normal
  | jumped (kind : Jump)
  | exhausted
deriving DecidableEq, Repr

/-- The oracle's answers still to come, and the fuel left. -/
structure World where
  answers : Stream' Bool
  fuel : Nat

structure Outcome where
  events : List Event
  completion : Completion
  world : World

namespace Outcome

/-- The outcome of a run that went on from earlier events. -/
def after (events : List Event) (o : Outcome) : Outcome := { o with events := events ++ o.events }

def map (f : Event → Event) (o : Outcome) : Outcome := { o with events := o.events.map f }

@[simp] theorem after_nil (o : Outcome) : o.after [] = o := rfl

@[simp] theorem after_world (es : List Event) (o : Outcome) : (o.after es).world = o.world := rfl

@[simp] theorem map_events (f : Event → Event) (o : Outcome) :
    (o.map f).events = o.events.map f := rfl

@[simp] theorem map_world (f : Event → Event) (o : Outcome) : (o.map f).world = o.world := rfl

@[simp] theorem map_completion (f : Event → Event) (o : Outcome) :
    (o.map f).completion = o.completion := rfl

@[simp] theorem map_after (f : Event → Event) (es : List Event) (o : Outcome) :
    (o.after es).map f = (o.map f).after (es.map f) := by
  simp [after, map]

end Outcome

/-- A process never gains fuel. -/
@[ext] structure Process where
  run : World → Outcome
  fuel_le : ∀ w, (run w).world.fuel ≤ w.fuel

/-- How a branch or a loop is decided: beforehand, or by the oracle, which a condition
asks with an event and the next element of a `for` without one. -/
inductive Guard where
  | known (verdict : Bool)
  | asked (event? : Option Event)

namespace Guard

def of (c : Node) : Guard :=
  match c.literal? with
  | some v => .known v
  | none => .asked (some (.tested c))

def events : Guard → List Event
  | .known _ => []
  | .asked e? => e?.toList

def holds (w : World) : Guard → Bool
  | .known v => v
  | .asked _ => w.answers.head

def next (w : World) : Guard → World
  | .known _ => w
  | .asked _ => { w with answers := w.answers.tail }

def map (f : Event → Event) : Guard → Guard
  | .known v => .known v
  | .asked e? => .asked (e?.map f)

@[simp] theorem next_fuel (w : World) (g : Guard) : (g.next w).fuel = w.fuel := by
  cases g <;> rfl

@[simp] theorem events_map (f : Event → Event) (g : Guard) : (g.map f).events = g.events.map f := by
  cases g with
  | known v => rfl
  | asked e? => cases e? <;> rfl

@[simp] theorem holds_map (f : Event → Event) (w : World) (g : Guard) :
    (g.map f).holds w = g.holds w := by
  cases g <;> rfl

@[simp] theorem next_map (f : Event → Event) (w : World) (g : Guard) :
    (g.map f).next w = g.next w := by
  cases g <;> rfl

end Guard

/-- What becomes of a loop after an iteration: it goes on unless this is some
completion of the whole loop. -/
def Completion.ofIteration : Completion → Option Completion
  | .normal | .jumped .nxt => none
  | .jumped .brk => some .normal
  | c => some c

/-- One turn of a loop ends it, or leaves it to go on in another world. -/
inductive Turn where
  | done (outcome : Outcome)
  | again (events : List Event) (world : World)

def Turn.map (f : Event → Event) : Turn → Turn
  | .done o => .done (o.map f)
  | .again es w => .again (es.map f) w

namespace Process

def skip : Process := ⟨fun w => ⟨[], .normal, w⟩, fun _ => Nat.le_refl _⟩

def emit (e : Event) (c : Completion := .normal) : Process := ⟨fun w => ⟨[e], c, w⟩, fun _ => Nat.le_refl _⟩

/-- The second process runs if the first completes normally. -/
def seq (p q : Process) : Process where
  run w :=
    let o := p.run w
    if o.completion = .normal then (q.run o.world).after o.events else o
  fuel_le w := by
    dsimp only
    split
    · exact Nat.le_trans (q.fuel_le _) (p.fuel_le w)
    · exact p.fuel_le w

def branch (g : Guard) (p q : Process) : Process where
  run w := ((if g.holds w then p else q).run (g.next w)).after g.events
  fuel_le w := by
    rw [Outcome.after_world, ← g.next_fuel w]
    exact (if g.holds w then p else q).fuel_le (g.next w)

/-- A turn starts an iteration, for a unit of fuel, if the guard holds. -/
def turn (g : Guard) (body : Process) (w : World) : Turn :=
  if g.holds w then
    match w.fuel with
    | 0 => .done ⟨g.events, .exhausted, g.next w⟩
    | fuel + 1 =>
      let o := body.run { g.next w with fuel }
      match o.completion.ofIteration with
      | none => .again (g.events ++ o.events) o.world
      | some c => .done ⟨g.events ++ o.events, c, o.world⟩
  else .done ⟨g.events, .normal, g.next w⟩

/-- Only a started iteration lets a loop go on, so going on costs fuel. -/
theorem fuel_lt_of_turn {g : Guard} {body : Process} {w w' : World} {es : List Event}
    (h : turn g body w = .again es w') : w'.fuel < w.fuel := by
  unfold turn at h
  split at h
  · split at h
    · contradiction
    · next fuel hfuel =>
      have hbody := body.fuel_le { g.next w with fuel }
      dsimp only at h
      split at h
      · cases h
        rw [hfuel]
        exact Nat.lt_succ_of_le hbody
      · contradiction
  · contradiction

theorem fuel_le_of_turn {g : Guard} {body : Process} {w : World} {o : Outcome}
    (h : turn g body w = .done o) : o.world.fuel ≤ w.fuel := by
  unfold turn at h
  split at h
  · split at h
    · cases h
      exact Nat.le_of_eq (g.next_fuel w)
    · next fuel hfuel =>
      have hbody := body.fuel_le { g.next w with fuel }
      dsimp only at h
      split at h
      · contradiction
      · cases h
        rw [hfuel]
        exact Nat.le_succ_of_le hbody
  · cases h
    exact Nat.le_of_eq (g.next_fuel w)

def loopRun (g : Guard) (body : Process) (w : World) : Outcome :=
  match _h : turn g body w with
  | .done o => o
  | .again es w' => (loopRun g body w').after es
termination_by w.fuel
decreasing_by exact fuel_lt_of_turn _h

theorem loopRun_of_done {g : Guard} {body : Process} {w : World} {o : Outcome}
    (h : turn g body w = .done o) : loopRun g body w = o := by
  rw [loopRun]
  split <;> simp_all

theorem loopRun_of_again {g : Guard} {body : Process} {w w' : World} {es : List Event}
    (h : turn g body w = .again es w') : loopRun g body w = (loopRun g body w').after es := by
  rw [loopRun]
  split <;> simp_all

/-- Turn after turn until one ends the loop. -/
def loop (g : Guard) (body : Process) : Process where
  run := loopRun g body
  fuel_le w := by
    fun_induction loopRun g body w with
    | case1 w o h => exact fuel_le_of_turn h
    | case2 w es w' h ih => exact Nat.le_trans ih (Nat.le_of_lt (fuel_lt_of_turn h))

def map (f : Event → Event) (p : Process) : Process := ⟨fun w => (p.run w).map f, p.fuel_le⟩

@[simp] theorem map_run (f : Event → Event) (p : Process) (w : World) :
    (p.map f).run w = (p.run w).map f := rfl

@[simp] theorem skip_seq (p : Process) : skip.seq p = p := by
  ext w : 2
  simp [seq, skip]

@[simp] theorem seq_skip (p : Process) : p.seq skip = p := by
  ext w : 2
  simp only [seq, skip]
  split
  · next h => simp [Outcome.after, ← h]
  · rfl

theorem seq_assoc (p q r : Process) : (p.seq q).seq r = p.seq (q.seq r) := by
  ext w : 2
  simp only [seq]
  by_cases hp : (p.run w).completion = .normal
  · simp only [hp, if_true]
    by_cases hq : (q.run (p.run w).world).completion = .normal
    · simp [Outcome.after, hq]
    · simp [Outcome.after, hq]
  · simp [hp]

/-- Nothing runs behind an abrupt completion. -/
theorem emit_seq (e : Event) (c : Completion) (hc : c ≠ .normal) (p : Process) :
    (emit e c).seq p = emit e c := by
  ext w : 2
  simp [seq, emit, hc]

@[simp] theorem branch_known (v : Bool) (p q : Process) :
    branch (.known v) p q = if v then p else q := by
  ext w : 2
  cases v <;> simp [branch, Guard.holds, Guard.next, Guard.events]

@[simp] theorem loop_known_false (body : Process) : loop (.known false) body = skip := by
  ext w : 2
  exact loopRun_of_done (by simp [turn, skip, Guard.holds, Guard.next, Guard.events])

@[simp] theorem map_skip (f : Event → Event) : skip.map f = skip := rfl

@[simp] theorem map_emit (f : Event → Event) (e : Event) (c : Completion) :
    (emit e c).map f = emit (f e) c := rfl

@[simp] theorem map_seq (f : Event → Event) (p q : Process) :
    (p.seq q).map f = (p.map f).seq (q.map f) := by
  ext w : 2
  simp only [map_run, seq]
  by_cases hp : (p.run w).completion = .normal
  · simp [hp]
  · simp [hp]

@[simp] theorem map_branch (f : Event → Event) (g : Guard) (p q : Process) :
    (branch g p q).map f = branch (g.map f) (p.map f) (q.map f) := by
  ext w : 2
  simp only [map_run, branch, Guard.holds_map, Guard.next_map, Guard.events_map]
  split <;> simp

theorem turn_map (f : Event → Event) (g : Guard) (body : Process) (w : World) :
    turn (g.map f) (body.map f) w = (turn g body w).map f := by
  unfold turn
  simp only [Guard.holds_map, Guard.next_map, Guard.events_map]
  split
  · cases w.fuel with
    | zero => simp [Turn.map, Outcome.map]
    | succ fuel =>
      simp only [map_run, Outcome.map_completion]
      split <;> simp [Turn.map, Outcome.map]
  · simp [Turn.map, Outcome.map]

@[simp] theorem map_loop (f : Event → Event) (g : Guard) (body : Process) :
    (loop g body).map f = loop (g.map f) (body.map f) := by
  ext w : 2
  change (loopRun g body w).map f = loopRun (g.map f) (body.map f) w
  -- Both loops take the same turns, since renaming events leaves every decision alone.
  fun_induction loopRun g body w with
  | case1 w o h =>
    have ht := turn_map f g body w
    rw [h] at ht
    rw [loopRun_of_done ht]
  | case2 w es w' h ih =>
    have ht := turn_map f g body w
    rw [h] at ht
    rw [loopRun_of_again ht, ← ih, Outcome.map_after]

end Process

mutual

/-- The control flow of a statement. `asks` tells whether `repeat` asks the oracle
before each iteration, as `for` does, or goes on unasked. -/
def Node.exec (asks : Bool) : Node → Process
  | .block b => b.exec asks
  | .cond _ c t none => .branch (.of c) (t.exec asks) .skip
  | .cond _ c t (some e) => .branch (.of c) (t.exec asks) (e.exec asks)
  | .whileLoop _ c b => .loop (.of c) (b.exec asks)
  | .repeatLoop _ b => .loop (if asks then .asked none else .known true) (b.exec asks)
  | .forLoop _ _ x b => (Process.emit (.ranged x)).seq (.loop (.asked none) (b.exec asks))
  | .jump s k x => .emit (.jumped (.jump s k x)) (.jumped k)
  | n => .emit (.ran n)

def Block.exec (asks : Bool) : Block → Process
  | ⟨_, ss⟩ => execNodes asks ss

def execNodes (asks : Bool) : List Node → Process
  | [] => .skip
  | n :: ns => (n.exec asks).seq (execNodes asks ns)

end

def Program.exec (asks : Bool) (p : Program) : Process := execNodes asks p.body

/-- Opaque statements and what loops run over are pruned; conditions and jumps stay. -/
def Event.prune : Event → Event
  | .ran n => .ran n.prune.node
  | .ranged x => .ranged x.prune.node
  | e => e

@[simp] theorem guard_prune (c : Node) : (Guard.of c).map Event.prune = .of c := by
  unfold Guard.of
  cases c.literal? with
  | some v => rfl
  | none => rfl

/-- A jump lets nothing behind it run, so cutting off what follows it changes nothing. -/
theorem execNodes_appendToJump (asks : Bool) (ss rest : List Node) :
    execNodes asks (appendToJump ss rest) = (execNodes asks ss).seq (execNodes asks rest) := by
  induction ss with
  | nil => simp [appendToJump, execNodes]
  | cons n ns ih =>
    simp only [appendToJump]
    split
    · next hn =>
      cases n with
      | jump s k x =>
        have hk : Completion.jumped k ≠ .normal := nofun
        simp only [execNodes, Node.exec, Process.emit_seq _ _ hk]
      | _ => simp [Node.isJump] at hn
    · simp only [execNodes, ih, Process.seq_assoc]

theorem Block.exec_eq (asks : Bool) (b : Block) : b.exec asks = execNodes asks b.statements := by
  cases b
  rfl

theorem execNodes_single (asks : Bool) (n : Node) : execNodes asks [n] = n.exec asks := by
  simp [execNodes]

mutual

theorem execNodes_prune_statements (asks : Bool) :
    (n : Node) → execNodes asks n.prune.statements = (n.exec asks).map Event.prune
  | .number .. | .string .. | .boolean .. | .null .. | .identifier .. | .unary .. | .binary ..
  | .call .. | .index .. | .member .. | .assign .. | .function .. | .jump .. => by
    simp [Node.prune, execNodes, Node.exec, Event.prune]
  | .block b => by
    rw [Node.prune, Pruned.statements_splice, ← Block.exec_eq, b.exec_prune, Node.exec]
  | .cond s c t none => by
    have ht := t.exec_prune asks
    rw [Node.prune_cond, Node.exec, Process.map_branch, guard_prune, ← ht]
    -- Pruning resolves just those conditions whose guard is known beforehand.
    cases h : c.literal? with
    | none => simp [execNodes_single, Node.exec]
    | some v => cases v <;> simp [Block.exec_eq, execNodes, Guard.of, h]
  | .cond s c t (some e) => by
    have ht := t.exec_prune asks
    have he := e.exec_prune asks
    rw [Node.prune_cond, Node.exec, Process.map_branch, guard_prune, ← ht, ← he]
    cases h : c.literal? with
    | none => simp [execNodes_single, Node.exec]
    | some v => cases v <;> simp [Block.exec_eq, Guard.of, h]
  | .whileLoop s c b => by
    have hb := b.exec_prune asks
    rw [Node.prune, Node.exec, Process.map_loop, guard_prune, ← hb]
    split
    · next h => simp [execNodes, Guard.of, h]
    · simp [execNodes_single, Node.exec]
  | .repeatLoop s b => by
    have hb := b.exec_prune asks
    cases asks <;> simp [Node.prune, execNodes_single, Node.exec, Guard.map, hb]
  | .forLoop s v x b => by
    have hb := b.exec_prune asks
    simp [Node.prune, execNodes_single, Node.exec, Guard.map, Event.prune, hb]

theorem Block.exec_prune (asks : Bool) :
    (b : Block) → b.prune.exec asks = (b.exec asks).map Event.prune
  | ⟨_, ss⟩ => execNodes_pruneNodes asks ss

theorem execNodes_pruneNodes (asks : Bool) :
    (ss : List Node) → execNodes asks (pruneNodes ss) = (execNodes asks ss).map Event.prune
  | [] => by simp [pruneNodes, execNodes]
  | n :: ns => by
    rw [pruneNodes, execNodes_appendToJump, execNodes_prune_statements asks n,
      execNodes_pruneNodes asks ns, execNodes, Process.map_seq]

end

/-- Pruning keeps the trace of a program, and of a block, under every oracle and with
every amount of fuel: the same events in the same order, and the same completion. -/
theorem trace_prune (asks : Bool) (answers : Stream' Bool) (fuel : Nat) :
    (∀ p : Program,
      ((p.prune.exec asks).run ⟨answers, fuel⟩).events =
        ((p.exec asks).run ⟨answers, fuel⟩).events.map Event.prune ∧
      ((p.prune.exec asks).run ⟨answers, fuel⟩).completion =
        ((p.exec asks).run ⟨answers, fuel⟩).completion) ∧
    ∀ b : Block,
      ((b.prune.exec asks).run ⟨answers, fuel⟩).events =
        ((b.exec asks).run ⟨answers, fuel⟩).events.map Event.prune ∧
      ((b.prune.exec asks).run ⟨answers, fuel⟩).completion =
        ((b.exec asks).run ⟨answers, fuel⟩).completion := by
  constructor
  · intro p
    have hp : p.prune.exec asks = (p.exec asks).map Event.prune := execNodes_pruneNodes asks p.body
    rw [hp]
    exact ⟨rfl, rfl⟩
  · intro b
    rw [b.exec_prune asks]
    exact ⟨rfl, rfl⟩

end Deadwood
