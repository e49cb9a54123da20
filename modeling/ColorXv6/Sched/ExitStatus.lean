import ColorXv6.Sched.Table

/-!
Exit statuses. The process table is a family tree at every moment, a process that sleeps
in `wait` has no ZOMBIE child, and what `wait` returns is the pid and the status of a
process that exited and was not returned before.
-/
namespace ColorXv6.Sched.ExitStatus
open Lib.Runs Lib.Slots Param Table
open Vm.Process (ProcState)

abbrev stateOf (s : State) (q : Nat) : ProcState := (s.ptable.proc q).state

abbrev parentOf (s : State) (q : Nat) : Option Nat := (s.ptable.proc q).parent

/-- Between birth and exit. -/
def alive : ProcState → Bool
  | .sleeping | .runnable | .running => true
  | .unused | .embryo | .zombie => false

variable {state : ProcState} {q np : Nat}

theorem alive_states (living : alive state = true) :
    state ≠ .unused ∧ state ≠ .embryo ∧ state ≠ .zombie := by
  cases state <;> simp_all [alive]

/-- The slot a process in `fork` is setting up. -/
def forks : Pc → Option Nat
  | .forkAlloc np | .forkLinked np => some np
  | _ => none

structure Family (s : State) : Prop where
  slots : ∀ q, nproc ≤ q → stateOf s q = .unused
  init : alive (stateOf s s.ptable.initproc) = true ∧ parentOf s s.ptable.initproc = none
  unused : ∀ q, stateOf s q = .unused → parentOf s q = none
  parent : ∀ q p, parentOf s q = some p → alive (stateOf s p) = true ∧ p ≠ q
  adopted : ∀ q, q ≠ s.ptable.initproc → stateOf s q ≠ .unused → stateOf s q ≠ .embryo →
    parentOf s q ≠ none
  alloc : ∀ p np, s.pc p = .forkAlloc np → parentOf s np = none
  linked : ∀ p np, s.pc p = .forkLinked np → parentOf s np = some p
  forker : ∀ p np, forks (s.pc p) = some np → alive (stateOf s p) = true ∧ stateOf s np = .embryo
  embryo : ∀ q, stateOf s q = .embryo → ∃ p, forks (s.pc p) = some q
  distinct : ∀ p p' np, forks (s.pc p) = some np → forks (s.pc p') = some np → p = p'

/-- A piece that keeps the family tree and the books. -/
structure Quiet (s t : State) : Prop where
  id : t.id = s.id
  born : t.born = s.born
  forker : t.forker = s.forker
  pidOf : t.pidOf = s.pidOf
  exits : t.exits = s.exits
  init : t.ptable.initproc = s.ptable.initproc
  parent : ∀ q, parentOf t q = parentOf s q
  pid : ∀ q, (t.ptable.proc q).pid = (s.ptable.proc q).pid
  ret : ∀ q, (t.ptable.proc q).ret = (s.ptable.proc q).ret
  state : ∀ q, stateOf t q = stateOf s q ∨ alive (stateOf s q) = true ∧ alive (stateOf t q) = true
  pc : ∀ q, t.pc q = s.pc q ∨ forks (s.pc q) = none ∧ forks (t.pc q) = none

variable {s t : State}

theorem Quiet.alive (quiet : Quiet s t) (q : Nat) :
    alive (stateOf t q) = alive (stateOf s q) := by
  rcases quiet.state q with same | ⟨before, after⟩
  · rw [same]
  · rw [before, after]

/-- A state outside of life is seen alike before and after. -/
theorem Quiet.dead (quiet : Quiet s t) (q : Nat) {st : ProcState} (out : ExitStatus.alive st = false) :
    stateOf t q = st ↔ stateOf s q = st := by
  rcases quiet.state q with same | ⟨before, after⟩
  · rw [same]
  · constructor <;>
    · intro here
      simp_all

theorem Quiet.forks (quiet : Quiet s t) (q : Nat) : forks (t.pc q) = forks (s.pc q) := by
  rcases quiet.pc q with same | ⟨before, after⟩
  · rw [same]
  · rw [before, after]

variable {pc : Pc}

theorem Quiet.fork_pc (quiet : Quiet s t) {p : Nat} (place : t.pc p = pc)
    (forking : ExitStatus.forks pc ≠ none) : s.pc p = pc := by
  rcases quiet.pc p with same | ⟨before, after⟩
  · rw [← same, place]
  · rw [place] at after
    exact absurd after forking

theorem Family.quiet (family : Family s) (quiet : Quiet s t) : Family t where
  slots q out := (quiet.dead q rfl).mpr (family.slots q out)
  init := by
    rw [quiet.init, quiet.alive, quiet.parent]
    exact family.init
  unused q unused := by
    rw [quiet.parent]
    exact family.unused q ((quiet.dead q rfl).mp unused)
  parent q p parent := by
    rw [quiet.alive]
    rw [quiet.parent] at parent
    exact family.parent q p parent
  adopted q other used grown := by
    rw [quiet.parent]
    rw [quiet.init] at other
    exact family.adopted q other (fun h => used ((quiet.dead q rfl).mpr h))
      (fun h => grown ((quiet.dead q rfl).mpr h))
  alloc p np place := by
    rw [quiet.parent]
    exact family.alloc p np (quiet.fork_pc place (by simp [ExitStatus.forks]))
  linked p np place := by
    rw [quiet.parent]
    exact family.linked p np (quiet.fork_pc place (by simp [ExitStatus.forks]))
  forker p np forking := by
    rw [quiet.forks] at forking
    obtain ⟨living, embryo⟩ := family.forker p np forking
    exact ⟨by rw [quiet.alive, living], (quiet.dead np rfl).mpr embryo⟩
  embryo q embryo := by
    obtain ⟨p, forking⟩ := family.embryo q ((quiet.dead q rfl).mp embryo)
    exact ⟨p, by rw [quiet.forks, forking]⟩
  distinct p p' np first second := by
    rw [quiet.forks] at first second
    exact family.distinct p p' np first second

/-! The pieces that change the tree, by what they do to states, parents and places. -/

/-- A piece of `fork` by `p`: the new slot has a state and a parent now, and `p` goes on. -/
structure Forking (p np : Nat) (state : ProcState) (parent : Option Nat) (pc : Pc)
    (s t : State) : Prop where
  init : t.ptable.initproc = s.ptable.initproc
  states : ∀ q, stateOf t q = if q = np then state else stateOf s q
  parents : ∀ q, parentOf t q = if q = np then parent else parentOf s q
  others : ∀ q, q ≠ np → t.ptable.proc q = s.ptable.proc q
  rets : ∀ q, (t.ptable.proc q).ret = (s.ptable.proc q).ret
  pcs : ∀ q, t.pc q = if q = p then pc else s.pc q
  exits : t.exits = s.exits
  waits : t.waits = s.waits

variable {parent : Option Nat}

section Tree
variable {p np : Nat} (family : Family s)
include family

/-- A slot that is not alive is neither init nor a parent, and is not in `fork`. -/
theorem Family.lifeless (dead : alive (stateOf s q) = false) :
    q ≠ s.ptable.initproc ∧ (∀ r, parentOf s r ≠ some q) ∧ forks (s.pc q) = none := by
  have never (living : alive (stateOf s q) = true) : False := by simp [dead] at living
  refine ⟨?_, fun r child => never (family.parent r q child).1, ?_⟩
  · rintro rfl
    exact never family.init.1
  · rw [Option.eq_none_iff_forall_ne_some]
    exact fun np forking => never (family.forker q np forking).1

theorem Family.forkAlloc (place : s.pc p = .user) (living : alive (stateOf s p) = true)
    (inside : np < nproc) (free : stateOf s np = .unused)
    (step : Forking p np .embryo none (.forkAlloc np) s t) : Family t := by
  obtain ⟨notInit, childless, -⟩ := family.lifeless (q := np) (by rw [free]; rfl)
  have nobody : ∀ q, forks (s.pc q) ≠ some np := by
    intro q forking
    cases free.symm.trans (family.forker q np forking).2
  obtain ⟨slots, initial, unused, parent, adopted, alloc, linked, forker, embryo, distinct⟩ := family
  obtain ⟨init, states, parents, -, -, pcs, -, -⟩ := step
  constructor <;> grind [alive, forks]

/-- `fork` fails, links the new slot to its parent, or makes it RUNNABLE. -/
theorem Family.forkOn {state : ProcState} {pc : Pc}
    (place : forks (s.pc p) = some np) (step : Forking p np state parent pc s t)
    (outcome : state = .unused ∧ parent = none ∧ pc = .user ∨
      parent = some p ∧ (state = .embryo ∧ pc = .forkLinked np ∨ state = .runnable ∧ pc = .user)) :
    Family t := by
  obtain ⟨living, new⟩ := family.forker p np place
  obtain ⟨notInit, childless, -⟩ := family.lifeless (q := np) (by rw [new]; rfl)
  have alone : ∀ q, forks (s.pc q) = some np → q = p :=
    fun q forking => family.distinct q p np forking place
  obtain ⟨slots, initial, unused, parent, adopted, alloc, linked, forker, embryo, distinct⟩ := family
  obtain ⟨init, states, parents, -, -, pcs, -, -⟩ := step
  constructor <;> grind [alive, forks]

variable (init : t.ptable.initproc = s.ptable.initproc)
include init

theorem Family.exit (place : s.pc p = .user) (living : alive (stateOf s p) = true)
    (other : p ≠ s.ptable.initproc) (gone : stateOf t p = .zombie)
    (states : ∀ q, q ≠ p → stateOf t q = stateOf s q ∨
      alive (stateOf s q) = true ∧ alive (stateOf t q) = true)
    (parents : ∀ q, parentOf t q =
      if parentOf s q = some p then some s.ptable.initproc else parentOf s q)
    (pcs : ∀ q, t.pc q = s.pc q) : Family t := by
  obtain ⟨slots, initial, unused, parent, adopted, alloc, linked, forker, embryo, distinct⟩ := family
  constructor <;> grind [alive, alive_states, forks]

theorem Family.reap (place : forks (s.pc p) = none) (zombie : stateOf s q = .zombie)
    (states : ∀ r, stateOf t r = if r = q then .unused else stateOf s r)
    (parents : ∀ r, parentOf t r = if r = q then none else parentOf s r)
    (pcs : ∀ r, t.pc r = if r = p then .user else s.pc r) : Family t := by
  obtain ⟨slots, initial, unused, parent, adopted, alloc, linked, forker, embryo, distinct⟩ := family
  constructor <;> grind [alive, alive_states, forks]

end Tree

/-! Nobody sleeps in `wait` with a ZOMBIE child. -/

def Roused (s : State) : Prop := ∀ p, s.pc p = .waiting → stateOf s p = .sleeping →
  (s.ptable.proc p).chan = some (.proc p) ∧ ∀ q, parentOf s q = some p → stateOf s q ≠ .zombie

/-- Whoever sleeps in `wait` slept there before, and its ZOMBIE children were so before. -/
theorem Roused.keep (roused : Roused s)
    (asleep : ∀ p, t.pc p = .waiting → stateOf t p = .sleeping →
      s.pc p = .waiting ∧ stateOf s p = .sleeping ∧ (t.ptable.proc p).chan = (s.ptable.proc p).chan ∧
      ∀ q, parentOf t q = some p → stateOf t q = .zombie →
        parentOf s q = some p ∧ stateOf s q = .zombie) : Roused t := by
  intro p place sleeping
  obtain ⟨before, slept, chan, children⟩ := asleep p place sleeping
  obtain ⟨channel, none⟩ := roused p before slept
  refine ⟨chan.trans channel, ?_⟩
  intro q child zombie
  obtain ⟨childBefore, zombieBefore⟩ := children q child zombie
  exact none q childBefore zombieBefore

theorem Roused.quiet (roused : Roused s) (quiet : Quiet s t)
    (asleep : ∀ p, t.pc p = .waiting → stateOf t p = .sleeping →
      s.pc p = .waiting ∧ stateOf s p = .sleeping ∧
        (t.ptable.proc p).chan = (s.ptable.proc p).chan) : Roused t := by
  apply roused.keep
  intro p place sleeping
  obtain ⟨before, slept, chan⟩ := asleep p place sleeping
  refine ⟨before, slept, chan, ?_⟩
  intro q child zombie
  exact ⟨by rw [← quiet.parent, child], (quiet.dead q rfl).mp zombie⟩

/-! The books. -/

def exited (s : State) : List Nat := s.exits.map Prod.fst

def returned (waits : List WaitResult) : List Nat :=
  waits.filterMap fun
    | .child _ child _ _ => some child
    | .failed _ => none

/-- The process that forked `child`, or init once that one has exited. -/
def CurrentParent (s : State) (child parent : Nat) : Prop :=
  ∃ forker, s.forker child = some forker ∧
    if forker ∈ exited s then parent = s.id s.ptable.initproc else parent = forker

/-- A returned child has exited with that status and had that pid. -/
def Genuine (s : State) : WaitResult → Prop
  | .child _ child pid status => pid = s.pidOf child ∧ (child, status) ∈ s.exits
  | .failed _ => True

structure Ledger (s : State) : Prop where
  ids : ∀ q, stateOf s q ≠ .unused → s.id q < s.born ∧ s.pidOf (s.id q) = (s.ptable.proc q).pid
  inj : ∀ q r, stateOf s q ≠ .unused → stateOf s r ≠ .unused → s.id q = s.id r → q = r
  past : ∀ i ∈ exited s, i < s.born
  once : (exited s).Nodup
  living : ∀ q, stateOf s q ≠ .unused → stateOf s q ≠ .zombie → s.id q ∉ exited s
  zombie : ∀ q, stateOf s q = .zombie →
    (s.id q, (s.ptable.proc q).ret) ∈ s.exits ∧ s.id q ∉ returned s.waits
  parent : ∀ q p, parentOf s q = some p → CurrentParent s (s.id q) (s.id p)
  unique : (returned s.waits).Nodup
  genuine : ∀ r ∈ s.waits, Genuine s r

theorem Quiet.exited (quiet : Quiet s t) : exited t = exited s := by
  unfold ExitStatus.exited
  rw [quiet.exits]

theorem Quiet.genuine (quiet : Quiet s t) (r : WaitResult) : Genuine t r ↔ Genuine s r := by
  cases r <;> simp [Genuine, quiet.pidOf, quiet.exits]

/-- A piece that keeps the tree and at most notes a `wait` that failed. -/
theorem Ledger.quiet (ledger : Ledger s) (quiet : Quiet s t)
    (waits : t.waits = s.waits ∨ ∃ waiter, t.waits = s.waits ++ [.failed waiter]) : Ledger t := by
  have same : returned t.waits = returned s.waits := by
    rcases waits with same | ⟨waiter, more⟩
    · rw [same]
    · simp [more, returned]
  constructor
  · intro q used
    rw [quiet.id, quiet.born, quiet.pidOf, quiet.pid]
    exact ledger.ids q fun unused => used ((quiet.dead q rfl).mpr unused)
  · intro q r usedQ usedR
    rw [quiet.id]
    exact ledger.inj q r (fun unused => usedQ ((quiet.dead q rfl).mpr unused))
      (fun unused => usedR ((quiet.dead r rfl).mpr unused))
  · rw [quiet.exited, quiet.born]
    exact ledger.past
  · rw [quiet.exited]
    exact ledger.once
  · intro q used here
    rw [quiet.id, quiet.exited]
    exact ledger.living q (fun unused => used ((quiet.dead q rfl).mpr unused))
      (fun zombie => here ((quiet.dead q rfl).mpr zombie))
  · intro q zombie
    rw [quiet.id, quiet.ret, quiet.exits, same]
    exact ledger.zombie q ((quiet.dead q rfl).mp zombie)
  · intro q p parent
    rw [quiet.parent] at parent
    unfold CurrentParent
    rw [quiet.forker, quiet.exited, quiet.id, quiet.init]
    exact ledger.parent q p parent
  · rw [same]
    exact ledger.unique
  · intro r member
    rw [quiet.genuine]
    rcases waits with all | ⟨waiter, more⟩
    · exact ledger.genuine r (by rw [← all]; exact member)
    · rw [more, List.mem_append, List.mem_singleton] at member
      rcases member with old | rfl
      · exact ledger.genuine r old
      · trivial

theorem Genuine.keep {r : WaitResult} (genuine : Genuine s r)
    (pids : ∀ i ∈ exited s, t.pidOf i = s.pidOf i) (exits : ∀ e ∈ s.exits, e ∈ t.exits) :
    Genuine t r := by
  cases r with
  | child waiter child pid status =>
    obtain ⟨same, member⟩ := genuine
    exact ⟨same.trans (pids child (List.mem_map_of_mem member)).symm, exits _ member⟩
  | failed waiter => trivial

theorem returned_exited {waits : List WaitResult} (genuine : ∀ r ∈ waits, Genuine s r) (i : Nat)
    (back : i ∈ returned waits) : i ∈ exited s := by
  obtain ⟨r, member, found⟩ := List.mem_filterMap.mp back
  cases r with
  | child waiter child pid status =>
    cases found
    exact List.mem_map_of_mem (genuine _ member).2
  | failed waiter => cases found

theorem CurrentParent.keep {child child' parent parent' : Nat} (current : CurrentParent s child parent)
    (forkers : t.forker child' = s.forker child) (exits : exited t = exited s)
    (init : t.id t.ptable.initproc = s.id s.ptable.initproc) (same : parent' = parent) :
    CurrentParent t child' parent' := by
  unfold CurrentParent
  rw [forkers, exits, init, same]
  exact current

theorem Family.child_used (family : Family s) {p : Nat} (parent : parentOf s q = some p) :
    stateOf s q ≠ .unused := by
  intro unused
  simp [family.unused q unused] at parent

theorem Family.parent_used (family : Family s) {p : Nat} (parent : parentOf s q = some p) :
    stateOf s p ≠ .unused ∧ stateOf s p ≠ .zombie := by
  obtain ⟨used, -, here⟩ := alive_states (family.parent q p parent).1
  exact ⟨used, here⟩

theorem Family.init_used (family : Family s) :
    stateOf s s.ptable.initproc ≠ .unused ∧ stateOf s s.ptable.initproc ≠ .zombie := by
  obtain ⟨used, -, here⟩ := alive_states family.init.1
  exact ⟨used, here⟩

theorem exited_same (exits : t.exits = s.exits) : exited t = exited s := by
  unfold exited
  rw [exits]

section Books
variable {p np : Nat} (family : Family s) (ledger : Ledger s)
include ledger

section Fork
variable {state : ProcState} {parent : Option Nat} {pc : Pc}

include family in
theorem Ledger.forkAlloc (step : Forking p np .embryo none pc s t) (free : stateOf s np = .unused)
    (pid : (t.ptable.proc np).pid = s.ptable.nextpid)
    (ids : ∀ q, t.id q = if q = np then s.born else s.id q) (born : t.born = s.born + 1)
    (forkers : ∀ i, i < s.born → t.forker i = s.forker i)
    (named : ∀ i, t.pidOf i = if i = s.born then s.ptable.nextpid else s.pidOf i) : Ledger t := by
  obtain ⟨idsOk, inj, past, once, living, zombie, parent, unique, genuine⟩ := ledger
  obtain ⟨init, states, parents, others, rets, -, exits, waits⟩ := step
  have gone := exited_same exits
  constructor
  case parent =>
    intro q r child
    have before : parentOf s q = some r := by grind
    have usedQ := family.child_used before
    have usedP := (family.parent_used before).1
    have usedInit := family.init_used.1
    refine (parent q r before).keep ?_ gone ?_ ?_ <;> grind
  case genuine =>
    intro r member
    rw [waits] at member
    refine (genuine r member).keep ?_ ?_ <;> grind
  all_goals grind

include family in
/-- The new slot is linked to `p`, which is its forker now, or `fork` comes to its end, good or bad. -/
theorem Ledger.forkOn (place : forks (s.pc p) = some np) (step : Forking p np state parent pc s t)
    (grown : state ≠ .zombie) (pid : (t.ptable.proc np).pid = (s.ptable.proc np).pid)
    (ids : t.id = s.id) (born : t.born = s.born) (named : t.pidOf = s.pidOf)
    (child : parent = parentOf s np ∧ t.forker = s.forker ∨
      parent = some p ∧ t.forker = Function.update s.forker (s.id np) (some (s.id p))) :
    Ledger t := by
  obtain ⟨up, embryo⟩ := family.forker p np place
  obtain ⟨idsOk, inj, past, once, living, zombie, parentOk, unique, genuine⟩ := ledger
  obtain ⟨init, states, parents, others, rets, -, exits, waits⟩ := step
  have gone := exited_same exits
  constructor
  case parent =>
    intro q r childOf
    rcases child with ⟨same, forkers⟩ | ⟨rfl, forkers⟩
    · have before : parentOf s q = some r := by grind
      refine (parentOk q r before).keep ?_ gone ?_ ?_ <;> grind
    · rw [parents] at childOf
      split at childOf
      · rename_i here
        cases childOf
        obtain ⟨used, -, notDead⟩ := alive_states up
        refine ⟨s.id p, by rw [forkers, here, ids, Function.update_self], ?_⟩
        rw [gone, if_neg (living p used notDead), ids]
      · rename_i other
        have apart : s.id q ≠ s.id np := fun same =>
          other (inj q np (family.child_used childOf) (by simp [embryo]) same)
        exact (parentOk q r childOf).keep (by rw [forkers, ids, Function.update_of_ne apart]) gone
          (by rw [ids, init]) (by rw [ids])
  case genuine =>
    intro r member
    rw [waits] at member
    refine (genuine r member).keep ?_ ?_ <;> grind
  all_goals grind

end Fork

variable (init : t.ptable.initproc = s.ptable.initproc)
include family init

theorem Ledger.exit {status : Int} (living : alive (stateOf s p) = true)
    (other : p ≠ s.ptable.initproc) (zombie : stateOf t p = .zombie)
    (ret : (t.ptable.proc p).ret = status)
    (states : ∀ q, q ≠ p → stateOf t q = stateOf s q ∨
      alive (stateOf s q) = true ∧ alive (stateOf t q) = true)
    (parents : ∀ q, parentOf t q =
      if parentOf s q = some p then some s.ptable.initproc else parentOf s q)
    (pids : ∀ q, (t.ptable.proc q).pid = (s.ptable.proc q).pid)
    (rets : ∀ q, q ≠ p → (t.ptable.proc q).ret = (s.ptable.proc q).ret)
    (ids : t.id = s.id) (born : t.born = s.born) (forkers : t.forker = s.forker)
    (named : t.pidOf = s.pidOf) (exits : t.exits = s.exits ++ [(s.id p, status)])
    (waits : t.waits = s.waits) : Ledger t := by
  obtain ⟨idsOk, inj, past, once, livingOk, zombieOk, parent, unique, genuine⟩ := ledger
  have gone : exited t = exited s ++ [s.id p] := by
    unfold exited
    rw [exits, List.map_append]
    rfl
  obtain ⟨used, -, here⟩ := alive_states living
  constructor
  case parent =>
    intro q r child
    rw [parents] at child
    split at child
    · -- a child of `p`: its forker is `p`, which has exited now
      rename_i orphan
      cases child
      obtain ⟨f, forked, current⟩ := parent q p orphan
      have mine : s.id p = f := by
        split at current
        · exact absurd (inj p _ used family.init_used.1 current) other
        · exact current
      refine ⟨f, by rw [forkers, ids, forked], ?_⟩
      rw [gone, if_pos (by simp [mine]), init]
    · rename_i notMine
      obtain ⟨f, forked, current⟩ := parent q r child
      have usedR := (family.parent_used child).1
      refine ⟨f, by rw [forkers, ids, forked], ?_⟩
      rw [gone, ids, init]
      split at current
      · rename_i member
        rw [if_pos (List.mem_append_left _ member)]
        exact current
      · rename_i absent
        have different : f ≠ s.id p := by
          intro same
          have rIsP := inj r p usedR used (current.trans same)
          exact notMine (by rw [child, rIsP])
        rw [if_neg (by simp [absent, different])]
        exact current
  case genuine =>
    intro r member
    rw [waits] at member
    refine (genuine r member).keep ?_ ?_ <;> grind
  case zombie =>
    intro q dead
    rw [ids, exits, waits]
    by_cases here : q = p
    · subst here
      refine ⟨by simp [ret], ?_⟩
      intro back
      exact livingOk q used ‹_› (returned_exited genuine _ back)
    · have before : stateOf s q = .zombie := by
        rcases states q here with same | ⟨-, after⟩
        · exact same.symm.trans dead
        · simp [dead, alive] at after
      obtain ⟨member, fresh⟩ := zombieOk q before
      exact ⟨List.mem_append_left _ (by rw [rets q here]; exact member), fresh⟩
  all_goals grind [alive_states]

omit family in
theorem Ledger.reap (zombie : stateOf s q = .zombie)
    (states : ∀ r, stateOf t r = if r = q then .unused else stateOf s r)
    (parents : ∀ r, parentOf t r = if r = q then none else parentOf s r)
    (pids : ∀ r, r ≠ q → (t.ptable.proc r).pid = (s.ptable.proc r).pid)
    (rets : ∀ r, (t.ptable.proc r).ret = (s.ptable.proc r).ret)
    (ids : t.id = s.id) (born : t.born = s.born) (forkers : t.forker = s.forker)
    (named : t.pidOf = s.pidOf) (exits : t.exits = s.exits)
    (waits : t.waits = s.waits ++
      [.child (s.id p) (s.id q) (s.ptable.proc q).pid (s.ptable.proc q).ret]) : Ledger t := by
  obtain ⟨idsOk, inj, past, once, livingOk, zombieOk, parent, unique, genuine⟩ := ledger
  have gone := exited_same exits
  have more : returned t.waits = returned s.waits ++ [s.id q] := by
    simp [waits, returned]
  obtain ⟨member, fresh⟩ := zombieOk q zombie
  have used : stateOf s q ≠ .unused := by simp [zombie]
  constructor
  case parent =>
    intro r p' child
    rw [parents] at child
    split at child
    · cases child
    · refine (parent r p' child).keep ?_ gone ?_ ?_ <;> grind
  case zombie =>
    intro r dead
    rw [states] at dead
    split at dead
    · cases dead
    · rename_i other
      obtain ⟨noted, notBack⟩ := zombieOk r dead
      rw [ids, rets, exits, more, List.mem_append, List.mem_singleton]
      refine ⟨noted, ?_⟩
      rintro (back | same)
      · exact notBack back
      · exact other (inj r q (by simp [dead]) used same)
  case unique =>
    rw [more]
    exact unique.append (List.nodup_singleton _) (by simpa [List.disjoint_singleton] using fresh)
  case genuine =>
    intro r noted
    rw [waits, List.mem_append, List.mem_singleton] at noted
    rcases noted with old | rfl
    · refine (genuine r old).keep ?_ ?_ <;> grind
    · refine ⟨?_, by rw [exits]; exact member⟩
      rw [named]
      exact (idsOk q used).2.symm
  all_goals grind

end Books

structure Inv (s : State) : Prop where
  family : Family s
  roused : Roused s
  ledger : Ledger s

/-! The calls. -/

section Calls
variable {p : Nat}

theorem goto_pc (s : State) (p q : Nat) (pc : Pc) :
    (s.goto p pc).pc q = if q = p then pc else s.pc q :=
  Function.update_apply ..

/-- A slot changes in fields that say nothing about the tree. -/
structure Tame (old new : Proc) : Prop where
  fields : (new.parent, new.pid, new.ret) = (old.parent, old.pid, old.ret)
  state : new.state = old.state ∨ alive old.state = true ∧ alive new.state = true

theorem quiet_onTable {f : Ptable → Ptable} (init : (f s.ptable).initproc = s.ptable.initproc)
    (tame : ∀ q, Tame (s.ptable.proc q) ((f s.ptable).proc q)) : Quiet s (s.onTable f) where
  id := rfl
  born := rfl
  forker := rfl
  pidOf := rfl
  exits := rfl
  init := init
  parent q := congrArg Prod.fst (tame q).fields
  pid q := congrArg (fun r => r.2.1) (tame q).fields
  ret q := congrArg (fun r => r.2.2) (tame q).fields
  state q := (tame q).state
  pc _ := Or.inl rfl

theorem quiet_goto (before : forks (s.pc p) = none) (after : forks pc = none) :
    Quiet s (s.goto p pc) where
  id := rfl
  born := rfl
  forker := rfl
  pidOf := rfl
  exits := rfl
  init := rfl
  parent _ := rfl
  pid _ := rfl
  ret _ := rfl
  state _ := Or.inl rfl
  pc q := by
    rw [goto_pc]
    split
    · rename_i here
      exact Or.inr ⟨by rw [here, before], after⟩
    · exact Or.inl rfl

theorem sameOrBoth_trans {α : Type} {P : α → Prop} {a b c : α} (first : b = a ∨ P a ∧ P b)
    (second : c = b ∨ P b ∧ P c) : c = a ∨ P a ∧ P c := by
  rcases first with rfl | ⟨before, between⟩
  · exact second
  · rcases second with rfl | ⟨-, after⟩
    · exact Or.inr ⟨before, between⟩
    · exact Or.inr ⟨before, after⟩

theorem Quiet.trans {u : State} (first : Quiet s t) (second : Quiet t u) : Quiet s u where
  id := second.id.trans first.id
  born := second.born.trans first.born
  forker := second.forker.trans first.forker
  pidOf := second.pidOf.trans first.pidOf
  exits := second.exits.trans first.exits
  init := second.init.trans first.init
  parent q := (second.parent q).trans (first.parent q)
  pid q := (second.pid q).trans (first.pid q)
  ret q := (second.ret q).trans (first.ret q)
  state q := sameOrBoth_trans (P := fun state => ExitStatus.alive state = true) (first.state q)
    (second.state q)
  pc q := sameOrBoth_trans (P := fun pc => ExitStatus.forks pc = none) (first.pc q) (second.pc q)

theorem Quiet.note (quiet : Quiet s t) (waits : List WaitResult) : Quiet s { t with waits } :=
  { quiet with }

theorem Inv.quiet (inv : Inv s) (quiet : Quiet s t)
    (waits : t.waits = s.waits ∨ ∃ waiter, t.waits = s.waits ++ [.failed waiter])
    (asleep : ∀ p, t.pc p = .waiting → stateOf t p = .sleeping →
      s.pc p = .waiting ∧ stateOf s p = .sleeping ∧
        (t.ptable.proc p).chan = (s.ptable.proc p).chan) : Inv t :=
  ⟨inv.family.quiet quiet, inv.roused.quiet quiet asleep, inv.ledger.quiet quiet waits⟩

theorem quiet_modify {f : Proc → Proc} (tame : Tame (s.ptable.proc p) (f (s.ptable.proc p))) :
    Quiet s (s.onTable fun t => t.modify p f) := by
  refine quiet_onTable rfl fun q => ?_
  by_cases here : q = p
  · subst here
    rw [modify_same]
    exact tame
  · rw [modify_other s.ptable f here]
    exact ⟨rfl, Or.inl rfl⟩

/-- As above, and if it is asleep afterwards then neither it nor its channel has changed. -/
theorem inv_modify (inv : Inv s) {f : Proc → Proc}
    (tame : Tame (s.ptable.proc p) (f (s.ptable.proc p)))
    (asleep : (f (s.ptable.proc p)).state = .sleeping →
      stateOf s p = .sleeping ∧ (f (s.ptable.proc p)).chan = (s.ptable.proc p).chan) :
    Inv (s.onTable fun t => t.modify p f) := by
  refine inv.quiet (quiet_modify tame) (Or.inl rfl) ?_
  intro q place sleeping
  refine ⟨place, ?_⟩
  by_cases here : q = p
  · subst here
    simp only [State.onTable, stateOf, modify_same] at sleeping ⊢
    exact asleep sleeping
  · simp only [State.onTable, stateOf, modify_other s.ptable f here] at sleeping ⊢
    exact ⟨sleeping, trivial⟩

theorem inv_wakeup (inv : Inv s) (chan : Chan) : Inv (s.onTable (wakeup1 chan)) := by
  have wakes := wakeup1_wakes chan s.ptable
  refine inv.quiet (quiet_onTable rfl fun q => ⟨?_, ?_⟩) (Or.inl rfl) ?_
  · rw [wakeup1_parent]
    have same := wakes.rest q
    simp only [rest, Prod.mk.injEq] at same ⊢
    exact ⟨trivial, same.2.1, same.2.2.1⟩
  · rcases wakes.state q with same | ⟨slept, awake⟩
    · exact Or.inl same
    · exact Or.inr ⟨by rw [slept]; rfl, by rw [awake]; rfl⟩
  · intro q place sleeping
    exact ⟨place, wakes.sleeping sleeping, wakes.chan q⟩

theorem inv_kill (inv : Inv s) (pid : Int) : Inv (s.onTable (kill pid)) := by
  unfold kill State.onTable
  dsimp only
  split
  · exact inv
  · refine inv_modify inv ⟨rfl, ?_⟩ ?_
    · dsimp only
      split
      · rename_i asleep
        exact Or.inr ⟨by rw [asleep]; rfl, rfl⟩
      · exact Or.inl rfl
    · dsimp only
      split
      · intro impossible
        cases impossible
      · intro asleep
        exact ⟨asleep, rfl⟩

theorem inv_setprio (inv : Inv s) (pid : Int) (prio : Prio) :
    Inv (s.onTable (setprocprio pid prio)) := by
  unfold setprocprio State.onTable
  dsimp only
  split
  · exact inv
  · exact inv_modify inv ⟨rfl, Or.inl rfl⟩ fun asleep => ⟨asleep, rfl⟩

/-- `p` goes on from a place outside `fork`. -/
theorem inv_goto (inv : Inv s) (before : forks (s.pc p) = none) (after : forks pc = none)
    (awake : pc ≠ .waiting) : Inv (s.goto p pc) := by
  refine inv.quiet (quiet_goto before after) (Or.inl rfl) ?_
  intro q place sleeping
  rw [goto_pc] at place
  split at place
  · exact absurd place awake
  · exact ⟨place, sleeping, rfl⟩

/-- What a process that calls `wait` gets back, seen from the state after the return. -/
def Entitled (t : State) : WaitResult → Prop
  | .child waiter child _ _ => CurrentParent t child waiter
  | .failed waiter => ∃ p < nproc, t.id p = waiter ∧ alive (stateOf t p) = true ∧
      ((∀ q, parentOf t q ≠ some p) ∨ (t.ptable.proc p).killed = true)

theorem no_kids (family : Family s) (none_ : havekids p s.ptable = false) (q : Nat) :
    parentOf s q ≠ some p := by
  intro child
  by_cases inside : q < nproc
  · simp only [havekids, List.any_eq_false, List.mem_range, decide_eq_true_eq] at none_
    exact none_ q inside child
  · exact family.child_used child (family.slots q (Nat.le_of_not_lt inside))

theorem no_zombie (family : Family s) (none_ : zombieChild p s.ptable = none) (q : Nat)
    (child : parentOf s q = some p) : stateOf s q ≠ .zombie := by
  intro zombie
  by_cases inside : q < nproc
  · have fails := firstSlot_none.mp none_ q inside
    simp [child, zombie] at fails
  · rw [family.slots q (Nat.le_of_not_lt inside)] at zombie
    cases zombie

/-- A scan that finds a ZOMBIE child. -/
theorem inv_return (inv : Inv s) (place : forks (s.pc p) = none) (zombie : stateOf s q = .zombie) :
    Inv { (s.onTable (reap q)).goto p .user with
      waits := s.waits ++
        [.child (s.id p) (s.id q) (s.ptable.proc q).pid (s.ptable.proc q).ret] } := by
  have states : ∀ r, ((reap q s.ptable).proc r).state = if r = q then .unused else stateOf s r :=
    fun r => modify_set Proc.state s.ptable q r rfl
  have parents : ∀ r, ((reap q s.ptable).proc r).parent = if r = q then none else parentOf s r :=
    fun r => modify_set Proc.parent s.ptable q r rfl
  have others : ∀ r, r ≠ q → (reap q s.ptable).proc r = s.ptable.proc r :=
    fun r other => modify_other s.ptable _ other
  have rets : ∀ r, ((reap q s.ptable).proc r).ret = (s.ptable.proc r).ret :=
    fun r => modify_field Proc.ret s.ptable q r rfl
  have pcs : ∀ r, ((s.onTable (reap q)).goto p .user).pc r = if r = p then .user else s.pc r :=
    fun r => goto_pc (s.onTable (reap q)) p r .user
  refine ⟨inv.family.reap rfl place zombie states parents pcs, inv.roused.keep ?_, ?_⟩
  · intro r waiting sleeping
    have before : r ≠ q := by
      rintro rfl
      have gone := states r
      rw [if_pos rfl] at gone
      exact absurd (gone.symm.trans sleeping) (by simp)
    refine ⟨?_, ?_, congrArg Proc.chan (others r before), ?_⟩
    · have there := (pcs r).symm.trans waiting
      split at there
      · cases there
      · exact there
    · exact (congrArg Proc.state (others r before)).symm.trans sleeping
    · intro child parent dead
      have there : child ≠ q := by
        rintro rfl
        have gone := states child
        rw [if_pos rfl] at gone
        exact absurd (gone.symm.trans dead) (by simp)
      exact ⟨(congrArg Proc.parent (others child there)).symm.trans parent,
        (congrArg Proc.state (others child there)).symm.trans dead⟩
  · exact inv.ledger.reap rfl zombie states parents
      (fun r other => congrArg Proc.pid (others r other)) rets rfl rfl rfl rfl rfl rfl

/-- A scan that finds children but no ZOMBIE. -/
theorem inv_sleepInWait (inv : Inv s) (place : forks (s.pc p) = none)
    (living : alive (stateOf s p) = true) (none_ : zombieChild p s.ptable = none) :
    Inv ((s.onTable (sleep p (.proc p))).goto p .waiting) := by
  have slept : Quiet s (s.onTable (sleep p (.proc p))) :=
    quiet_modify ⟨rfl, Or.inr ⟨living, rfl⟩⟩
  have quiet : Quiet s ((s.onTable (sleep p (.proc p))).goto p .waiting) :=
    slept.trans (quiet_goto place rfl)
  refine ⟨inv.family.quiet quiet, ?_, inv.ledger.quiet quiet (Or.inl rfl)⟩
  intro r waiting sleeping
  by_cases here : r = p
  · subst here
    have chan : ((sleep r (.proc r) s.ptable).proc r).chan = some (.proc r) := by
      unfold sleep
      rw [modify_same]
    refine ⟨chan, ?_⟩
    intro q child zombie
    rw [quiet.parent] at child
    exact no_zombie inv.family none_ q child ((quiet.dead q rfl).mp zombie)
  · have same : (sleep p (.proc p) s.ptable).proc r = s.ptable.proc r := modify_other s.ptable _ here
    rw [goto_pc, if_neg here] at waiting
    obtain ⟨chan, children⟩ := inv.roused r waiting ((congrArg Proc.state same).symm.trans sleeping)
    refine ⟨(congrArg Proc.chan same).trans chan, ?_⟩
    intro q child zombie
    rw [quiet.parent] at child
    exact children q child ((quiet.dead q rfl).mp zombie)

/-- One scan of `wait` by a running process. -/
theorem inv_waitLoop (inv : Inv s) (inside : p < nproc) (place : forks (s.pc p) = none)
    (living : alive (stateOf s p) = true) :
    Inv (waitLoop s p) ∧ ((waitLoop s p).waits = s.waits ∨
      ∃ r, (waitLoop s p).waits = s.waits ++ [r] ∧ Entitled (waitLoop s p) r) := by
  unfold waitLoop
  split
  · rename_i q found
    have test : parentOf s q = some p ∧ stateOf s q = .zombie := by
      simpa using (firstSlot_some found).2
    exact ⟨inv_return inv place test.2, Or.inr ⟨_, rfl, inv.ledger.parent q p test.1⟩⟩
  · rename_i none_
    split
    · rename_i reason
      simp only [Bool.or_eq_true, Bool.not_eq_true'] at reason
      refine ⟨?_, Or.inr ⟨_, rfl, p, inside, rfl, living, ?_⟩⟩
      · have quiet : Quiet s { s.goto p .user with waits := s.waits ++ [.failed (s.id p)] } :=
          (quiet_goto place rfl).note _
        refine inv.quiet quiet (Or.inr ⟨_, rfl⟩) ?_
        intro r waiting sleeping
        have there := (goto_pc s p r .user).symm.trans waiting
        split at there
        · cases there
        · exact ⟨there, sleeping, rfl⟩
      · rcases reason with nobody | killed
        · exact Or.inl fun q => no_kids inv.family nobody q
        · exact Or.inr killed
    · exact ⟨inv_sleepInWait inv place living none_, Or.inl rfl⟩

theorem inv_resume (inv : Inv s) (inside : p < nproc) (run : stateOf s p = .running) :
    Inv (resume s p) ∧ ((resume s p).waits = s.waits ∨
      ∃ r, (resume s p).waits = s.waits ++ [r] ∧ Entitled (resume s p) r) := by
  have tidy : Inv (s.onTable fun t => t.modify p fun proc => { proc with chan := none }) := by
    refine inv_modify inv ⟨rfl, Or.inl rfl⟩ ?_
    intro asleep
    exact absurd (run.symm.trans asleep) (by simp)
  have living : alive ((s.ptable.modify p fun proc => { proc with chan := none }).proc p).state = true := by
    rw [modify_same]
    exact congrArg alive run
  unfold resume
  split
  · rename_i place
    exact inv_waitLoop tidy inside (by rw [State.onTable, place]; rfl) living
  · rename_i place
    exact ⟨inv_goto tidy (by rw [State.onTable, place]; rfl) rfl (by simp), Or.inl rfl⟩
  · exact ⟨inv, Or.inl rfl⟩

/-- The whole of `exit` under the lock. -/
theorem inv_exit (inv : Inv s) (status : Int) (place : s.pc p = .user)
    (run : stateOf s p = .running) (other : p ≠ s.ptable.initproc) :
    Inv { s.onTable (exit p status) with exits := s.exits ++ [(s.id p, status)] } := by
  have leaves := exit_leaves p status s.ptable
  have living : alive (stateOf s p) = true := congrArg alive run
  have states : ∀ q, q ≠ p → ((exit p status s.ptable).proc q).state = stateOf s q ∨
      alive (stateOf s q) = true ∧ alive ((exit p status s.ptable).proc q).state = true := by
    intro q away
    rcases leaves.state q away with same | ⟨slept, awake⟩
    · exact Or.inl same
    · exact Or.inr ⟨congrArg alive slept, congrArg alive awake⟩
  have parents : ∀ q, ((exit p status s.ptable).proc q).parent =
      if parentOf s q = some p then some s.ptable.initproc else parentOf s q := by
    intro q
    rw [leaves.parent]
    by_cases inside : q < nproc
    · simp only [inside, true_and]
    · have nobody := inv.family.unused q (inv.family.slots q (Nat.le_of_not_lt inside))
      rw [if_neg (fun h => inside h.1), if_neg (by rw [nobody]; simp)]
  refine ⟨?_, ?_, ?_⟩
  · exact inv.family.exit leaves.init place living other leaves.zombie states parents fun _ => rfl
  · refine inv.roused.keep ?_
    intro r waiting sleeping
    have away : r ≠ p := by
      rintro rfl
      exact absurd (leaves.zombie.symm.trans sleeping) (by simp)
    have chan : ((exit p status s.ptable).proc r).chan = (s.ptable.proc r).chan :=
      congrArg (fun fields => fields.2.2.2.1) (leaves.rest r away)
    have slept : stateOf s r = .sleeping := by
      rcases leaves.state r away with same | ⟨slept, -⟩
      · exact same.symm.trans sleeping
      · exact slept
    obtain ⟨notParent, notInit⟩ :=
      leaves.roused r away sleeping (chan.trans (inv.roused r waiting slept).1)
    refine ⟨waiting, slept, chan, ?_⟩
    intro q child zombie
    have passed := (parents q).symm.trans child
    split at passed
    · -- `q` was a child of `p`, so `r` is init and was woken for a ZOMBIE
      rename_i orphan
      have isInit : r = s.ptable.initproc := (Option.some.inj passed).symm
      have away' : q ≠ p := by
        rintro rfl
        exact (inv.family.parent q q orphan).2 rfl
      have before : stateOf s q = .zombie := by
        rcases leaves.state q away' with same | ⟨-, awake⟩
        · exact same.symm.trans zombie
        · exact absurd (awake.symm.trans zombie) (by simp)
      have inside : q < nproc := by
        by_contra outside
        rw [inv.family.slots q (Nat.le_of_not_lt outside)] at before
        cases before
      exact absurd isInit (notInit q inside orphan before)
    · by_cases here : q = p
      · subst here
        exact absurd passed notParent
      · refine ⟨passed, ?_⟩
        rcases leaves.state q here with same | ⟨-, awake⟩
        · exact same.symm.trans zombie
        · exact absurd (awake.symm.trans zombie) (by simp)
  · refine inv.ledger.exit inv.family leaves.init living other leaves.zombie leaves.ret states parents
      leaves.pid ?_ rfl rfl rfl rfl rfl rfl
    intro q away
    exact congrArg (fun fields => fields.2.2.1) (leaves.rest q away)

/-- After a piece of `fork` the new slot is neither asleep nor a ZOMBIE. -/
theorem Roused.fork (roused : Roused s) (step : Forking p np state parent pc s t)
    (awake : pc ≠ .waiting) (up : state ≠ .sleeping) (here : state ≠ .zombie) : Roused t := by
  have apart : ∀ {q : Nat} {st : ProcState}, stateOf t q = st → st ≠ state → q ≠ np := by
    rintro q st now other rfl
    rw [step.states, if_pos rfl] at now
    exact other now.symm
  refine roused.keep ?_
  intro r waiting sleeping
  have same := step.others r (apart sleeping up.symm)
  rw [step.pcs] at waiting
  split at waiting
  · exact absurd waiting awake
  · refine ⟨waiting, (congrArg Proc.state same).symm.trans sleeping, congrArg Proc.chan same, ?_⟩
    intro q child zombie
    have same' := step.others q (apart zombie here.symm)
    exact ⟨(congrArg Proc.parent same').symm.trans child,
      (congrArg Proc.state same').symm.trans zombie⟩

/-- A piece of `fork` changes the new slot in the table. -/
theorem forking_modify (f : Proc → Proc) (now : (f (s.ptable.proc np)).state = state)
    (child : (f (s.ptable.proc np)).parent = parent)
    (ret : (f (s.ptable.proc np)).ret = (s.ptable.proc np).ret)
    (procs : t.ptable.proc = (s.ptable.modify np f).proc)
    (init : t.ptable.initproc = s.ptable.initproc) (pcs : t.pc = (s.goto p pc).pc)
    (exits : t.exits = s.exits) (waits : t.waits = s.waits) :
    Forking p np state parent pc s t := by
  refine ⟨init, ?_, ?_, ?_, ?_, ?_, exits, waits⟩
  · intro q
    rw [stateOf, procs]
    exact modify_set Proc.state s.ptable np q now
  · intro q
    rw [parentOf, procs]
    exact modify_set Proc.parent s.ptable np q child
  · intro q other
    rw [procs, modify_other s.ptable f other]
  · intro q
    rw [procs, modify_field Proc.ret s.ptable np q ret]
  · intro q
    rw [pcs, goto_pc]

section Steps
variable (inv : Inv s)
include inv

theorem inv_forkAlloc {ptable : Ptable} (place : s.pc p = .user) (run : stateOf s p = .running)
    (found : allocproc s.ptable = some (np, ptable)) :
    Inv { s.goto p (.forkAlloc np) with
      ptable
      id := Function.update s.id np s.born
      born := s.born + 1
      forker := Function.update s.forker s.born none
      pidOf := Function.update s.pidOf s.born s.ptable.nextpid } := by
  unfold allocproc at found
  split at found
  · cases found
  · rename_i slot first
    cases found
    obtain ⟨inside, test⟩ := firstSlot_some first
    have free : stateOf s np = .unused := by simpa using test
    have nobody := inv.family.unused np free
    let f : Proc → Proc := fun proc => { proc with state := .embryo, pid := s.ptable.nextpid }
    refine ⟨inv.family.forkAlloc place (congrArg alive run) inside free ?step,
      inv.roused.fork ?step (by simp) (by simp) (by simp),
      inv.ledger.forkAlloc inv.family ?step free ?_ (fun q => Function.update_apply ..) rfl ?_
        fun i => Function.update_apply ..⟩
    case step => exact forking_modify f rfl nobody rfl rfl rfl rfl rfl rfl
    · simp
    · intro i below
      exact Function.update_of_ne (Nat.ne_of_lt below) ..

/-- What `fork` does once it has a slot. -/
theorem Inv.forkOn (place : forks (s.pc p) = some np)
    (step : Forking p np state parent pc s t)
    (outcome : state = .unused ∧ parent = none ∧ pc = .user ∨
      parent = some p ∧ (state = .embryo ∧ pc = .forkLinked np ∨ state = .runnable ∧ pc = .user))
    (pid : (t.ptable.proc np).pid = (s.ptable.proc np).pid)
    (ids : t.id = s.id) (born : t.born = s.born) (named : t.pidOf = s.pidOf)
    (child : parent = parentOf s np ∧ t.forker = s.forker ∨
      parent = some p ∧ t.forker = Function.update s.forker (s.id np) (some (s.id p))) : Inv t where
  family := inv.family.forkOn place step outcome
  roused := inv.roused.fork step (by grind) (by grind) (by grind)
  ledger := inv.ledger.forkOn inv.family place step (by grind) pid ids born named child

theorem inv_forkFail (place : s.pc p = .forkAlloc np) :
    Inv ((s.onTable (setState np .unused)).goto p .user) := by
  have nobody := inv.family.alloc p np place
  exact inv.forkOn (congrArg forks place)
    (forking_modify (fun proc => { proc with state := .unused }) rfl nobody rfl rfl rfl rfl rfl rfl)
    (by simp) (by simp [State.goto, State.onTable, setState]) rfl rfl rfl (.inl ⟨nobody.symm, rfl⟩)

theorem inv_forkLink (place : s.pc p = .forkAlloc np) :
    Inv { (s.onTable fun t => t.modify np fun proc => { proc with parent := some p }).goto p
        (.forkLinked np) with
      forker := Function.update s.forker (s.id np) (some (s.id p)) } := by
  have embryo := (inv.family.forker p np (congrArg forks place)).2
  exact inv.forkOn (congrArg forks place)
    (forking_modify (fun proc => { proc with parent := some p }) embryo rfl rfl rfl rfl rfl rfl rfl)
    (by simp) (by simp [State.goto, State.onTable]) rfl rfl rfl (.inr ⟨rfl, rfl⟩)

theorem inv_forkRun (place : s.pc p = .forkLinked np) :
    Inv ((s.onTable fun t => t.modify np fun proc => { proc with
      prio := (t.proc p).prio, state := .runnable }).goto p .user) := by
  have linked := inv.family.linked p np place
  exact inv.forkOn (congrArg forks place) (forking_modify _ rfl linked rfl rfl rfl rfl rfl rfl)
    (by simp) (by simp [State.goto, State.onTable]) rfl rfl rfl (.inl ⟨linked.symm, rfl⟩)

/-- A process that is alive is given another state of the living, not asleep. -/
theorem inv_setState (living : alive (stateOf s p) = true) (up : alive state = true)
    (awake : state ≠ .sleeping) :
    Inv (s.onTable (setState p state)) := by
  refine inv_modify inv ⟨rfl, Or.inr ⟨living, up⟩⟩ ?_
  intro asleep
  exact absurd asleep awake

theorem inv_sleep (addr : Nat) (place : s.pc p = .user)
    (run : stateOf s p = .running) : Inv ((s.onTable (sleep p (.other addr))).goto p .asleep) := by
  have slept : Quiet s (s.onTable (sleep p (.other addr))) :=
    quiet_modify ⟨rfl, Or.inr ⟨congrArg alive run, rfl⟩⟩
  refine inv.quiet (slept.trans (quiet_goto (by rw [State.onTable, place]; rfl) rfl)) (Or.inl rfl) ?_
  intro q waiting sleeping
  rw [goto_pc] at waiting
  split at waiting
  · cases waiting
  · rename_i other
    have same : (sleep p (.other addr) s.ptable).proc q = s.ptable.proc q :=
      modify_other s.ptable _ other
    exact ⟨waiting, (congrArg Proc.state same).symm.trans sleeping, congrArg Proc.chan same⟩

theorem inv_step {act : Act} (step : Step s act t) :
    Inv t ∧ (t.waits = s.waits ∨ ∃ r, t.waits = s.waits ++ [r] ∧ Entitled t r) := by
  unfold Step at step
  cases act <;> simp only [next, Option.ite_none_right_eq_some] at step
  case schedule p =>
    obtain ⟨⟨inside, ready⟩, ⟨⟩⟩ := step
    have up : Inv (s.onTable (setState p .running)) :=
      inv_setState inv (congrArg alive ready) rfl (by simp)
    have now : stateOf (s.onTable (setState p .running)) p = .running := by
      unfold stateOf State.onTable setState
      rw [modify_same]
    exact inv_resume up inside now
  case yield p =>
    obtain ⟨run, ⟨⟩⟩ := step
    exact ⟨inv_setState inv (congrArg alive run.2) rfl (by simp), Or.inl rfl⟩
  case forkAlloc p =>
    obtain ⟨ready, step⟩ := step
    split at step
    · cases step
      exact ⟨inv, Or.inl rfl⟩
    · rename_i np ptable found
      obtain ⟨-, rfl⟩ := guarded step
      exact ⟨inv_forkAlloc inv ready.2 ready.1.2 found, Or.inl rfl⟩
  case forkFail p =>
    split at step
    · obtain ⟨-, ⟨⟩⟩ := Option.ite_none_right_eq_some.mp step
      exact ⟨inv_forkFail inv ‹_›, Or.inl rfl⟩
    · cases step
  case forkLink p =>
    split at step
    · obtain ⟨-, ⟨⟩⟩ := Option.ite_none_right_eq_some.mp step
      exact ⟨inv_forkLink inv ‹_›, Or.inl rfl⟩
    · cases step
  case forkRun p =>
    split at step
    · obtain ⟨-, ⟨⟩⟩ := Option.ite_none_right_eq_some.mp step
      exact ⟨inv_forkRun inv ‹_›, Or.inl rfl⟩
    · cases step
  case exit p status =>
    obtain ⟨ready, ⟨⟩⟩ := step
    exact ⟨inv_exit inv status ready.2.1 ready.1.2 ready.2.2, Or.inl rfl⟩
  case wait p =>
    obtain ⟨ready, ⟨⟩⟩ := step
    exact inv_waitLoop inv ready.1.1 (by rw [ready.2]; rfl) (congrArg alive ready.1.2)
  case sleep p addr =>
    obtain ⟨ready, ⟨⟩⟩ := step
    exact ⟨inv_sleep inv addr ready.2 ready.1.2, Or.inl rfl⟩
  case wakeup chan =>
    cases step
    exact ⟨inv_wakeup inv chan, Or.inl rfl⟩
  case kill pid =>
    cases step
    exact ⟨inv_kill inv pid, Or.inl rfl⟩
  case setprio pid prio =>
    cases step
    exact ⟨inv_setprio inv pid prio, Or.inl rfl⟩

end Steps

end Calls

theorem boot_proc (q : Nat) :
    (q = 0 ∧ boot.ptable.proc q = { state := .runnable, pid := 1 }) ∨
      (q ≠ 0 ∧ boot.ptable.proc q = {}) := by
  by_cases first : q = 0
  · exact Or.inl ⟨first, if_pos first⟩
  · exact Or.inr ⟨first, if_neg first⟩

theorem boot_parent (q : Nat) : parentOf boot q = none := by
  rcases boot_proc q with ⟨-, proc⟩ | ⟨-, proc⟩ <;> rw [parentOf, proc]

theorem boot_used (used : stateOf boot q ≠ .unused) : q = 0 := by
  rcases boot_proc q with ⟨first, -⟩ | ⟨-, proc⟩
  · exact first
  · rw [stateOf, proc] at used
    exact absurd rfl used

theorem inv_boot : Inv boot where
  family := by
    constructor
    case slots =>
      intro q out
      by_contra used
      have first := boot_used used
      subst first
      exact absurd out (by decide)
    case init => exact ⟨rfl, rfl⟩
    case unused => exact fun q _ => boot_parent q
    case parent =>
      intro q p parent
      rw [boot_parent] at parent
      cases parent
    case adopted =>
      intro q other used
      exact absurd (boot_used used) other
    case embryo =>
      intro q embryo
      have first : q = 0 := boot_used (by rw [embryo]; simp)
      subst first
      cases embryo
    case distinct =>
      intro p p' np forking
      cases forking
    all_goals
      intro p np place
      cases place
  roused := by
    intro p place
    cases place
  ledger := by
    constructor
    case ids =>
      intro q used
      have first := boot_used used
      subst first
      exact ⟨Nat.zero_lt_one, rfl⟩
    case inj =>
      intro q r usedQ usedR _
      rw [boot_used usedQ, boot_used usedR]
    case living =>
      intro q _ _ impossible
      cases impossible
    case zombie =>
      intro q zombie
      have first : q = 0 := boot_used (by rw [zombie]; simp)
      subst first
      cases zombie
    case parent =>
      intro q p parent
      rw [boot_parent] at parent
      cases parent
    case once => exact List.nodup_nil
    case unique => exact List.nodup_nil
    all_goals
      intro i impossible
      cases impossible

/-- In every interleaving: whoever has a parent set has one that is neither UNUSED nor a
ZOMBIE; nobody sleeps in `wait` with a ZOMBIE child; every process exits once and is returned
at most once, with its own pid and status; and each return of `wait` goes to the current
parent, or is -1 for a caller that has no children or was killed. -/
theorem exit_status_once {acts : List Act} {s : State} (run : Run Step boot acts s) :
    (∀ q, q ≠ s.ptable.initproc → stateOf s q ≠ .unused → (∀ p, s.pc p ≠ .forkAlloc q) →
      ∃ p, parentOf s q = some p ∧ stateOf s p ≠ .unused ∧ stateOf s p ≠ .zombie) ∧
    (∀ p, s.pc p = .waiting → stateOf s p = .sleeping →
      ∀ q, parentOf s q = some p → stateOf s q ≠ .zombie) ∧
    (exited s).Nodup ∧ (returned s.waits).Nodup ∧
    (∀ waiter child pid status, .child waiter child pid status ∈ s.waits →
      pid = s.pidOf child ∧ (child, status) ∈ s.exits) ∧
    ∀ act t, Step s act t →
      t.waits = s.waits ∨ ∃ r, t.waits = s.waits ++ [r] ∧ Entitled t r := by
  have inv := run.preserves Inv (fun _ _ _ inv step => (inv_step inv step).1) inv_boot
  refine ⟨?_, fun p place asleep => (inv.roused p place asleep).2, inv.ledger.once,
    inv.ledger.unique, fun waiter child pid status noted => inv.ledger.genuine _ noted,
    fun act t step => (inv_step inv step).2⟩
  intro q other used linked
  cases parent : parentOf s q with
  | some p => exact ⟨p, rfl, inv.family.parent_used parent⟩
  | none =>
    exfalso
    by_cases embryo : stateOf s q = .embryo
    · obtain ⟨p, forking⟩ := inv.family.embryo q embryo
      cases place : s.pc p <;> simp only [place, forks, reduceCtorEq, Option.some.injEq] at forking
      · rw [forking] at place
        exact linked p place
      · rw [forking] at place
        rw [inv.family.linked p q place] at parent
        cases parent
    · exact inv.family.adopted q other used embryo parent

/-- Init forks a process that forks another one and exits first; init gets both back. -/
def orphan : List Act :=
  [.schedule 0, .forkAlloc 0, .forkLink 0, .forkRun 0, .wait 0,
    .schedule 1, .forkAlloc 1, .forkLink 1, .forkRun 1, .exit 1 7,
    .schedule 0, .wait 0, .schedule 2, .exit 2 9, .schedule 0]

theorem exit_status_once_orphan :
    ∃ s, Run Step boot orphan s ∧ s.waits = [.child 0 1 2 7, .child 0 2 3 9] ∧
      (2, 9) ∈ s.exits := by
  obtain ⟨s, run, test⟩ := execute_exists next boot orphan
    (fun s => s.waits = [.child 0 1 2 7, .child 0 2 3 9]) (by decide +kernel)
  have waits : s.waits = [.child 0 1 2 7, .child 0 2 3 9] := by simpa using test
  refine ⟨s, run, waits, ?_⟩
  exact ((exit_status_once run).2.2.2.2.1 0 2 3 9 (by simp [waits])).2

end ColorXv6.Sched.ExitStatus
