/-
# The bounded executor

`bounded_executor.cpp` and the template of its header: a queue with a capacity, a fixed number of workers
that take from its front, and a shutdown that lets them finish the queue or throws it away.

A worker is where its thread is in `worker_loop`. What runs under `mutex_` is one step. The two counters after
`task()` are two steps: `active_tasks_` goes down first, and until `completed_tasks_` has gone up the task
is in neither (`Worker.settling`). The condition variable is not modelled: a waiting worker may look at any
time, which is more than a notification lets it do.

An `Execution` keeps beside the executor what no counter of it says: which tasks were accepted, started,
completed and thrown away, and in what order.
-/
import NebulaKV.Core.Validation
import Mathlib.Data.List.Perm.Basic

namespace NebulaKV.Network

/-! ## The executor -/

inductive Worker (Task : Type) where
  | waiting
  | running (task : Task)
  | settling (task : Task)
  | returned
  deriving DecidableEq

def Worker.hasReturned {Task : Type} : Worker Task → Bool
  | .returned => true
  | _ => false

structure BoundedExecutor (Task : Type) where
  workerCount : Nat
  queueCapacity : Nat
  tasks : List Task := []
  workers : List (Worker Task) := []
  accepting : Bool := true
  stopping : Bool := false
  drainOnShutdown : Bool := true
  activeTasks : Nat := 0
  submittedTasks : Nat := 0
  completedTasks : Nat := 0
  rejectedTasks : Nat := 0
  deriving DecidableEq

namespace BoundedExecutor

variable {Task : Type}

def create (workerCount queueCapacity : Nat) : Except Error (BoundedExecutor Task) :=
  if workerCount = 0 then .error (.invalidArgument "worker count must be greater than zero")
  else if queueCapacity = 0 then .error (.invalidArgument "queue capacity must be greater than zero")
  else .ok { workerCount, queueCapacity, workers := List.replicate workerCount .waiting }

/-- Whether the task was taken: the caller gets its future then. -/
def trySubmit (executor : BoundedExecutor Task) (task : Task) : Bool × BoundedExecutor Task :=
  if !executor.accepting || executor.tasks.length ≥ executor.queueCapacity then
    (false, { executor with rejectedTasks := (executor.rejectedTasks + 1) % u64 })
  else
    (true, { executor with
      tasks := executor.tasks ++ [task]
      submittedTasks := (executor.submittedTasks + 1) % u64 })

/-- The part under the mutex; the first caller goes on to join the workers. -/
def shutdown (executor : BoundedExecutor Task) (drain : Bool) : BoundedExecutor Task :=
  if executor.stopping then executor
  else
    { executor with
      accepting := false
      stopping := true
      drainOnShutdown := drain
      tasks := if drain then executor.tasks else [] }

def setWorker (executor : BoundedExecutor Task) (i : Nat) (worker : Worker Task) :
    BoundedExecutor Task :=
  { executor with workers := executor.workers.set i worker }

/-- The part of `worker_loop` under the mutex, from `wait` to where the lock is let go. -/
def takeTask (executor : BoundedExecutor Task) (i : Nat) : BoundedExecutor Task :=
  if !(executor.stopping || !executor.tasks.isEmpty) then executor
  else
    match executor.tasks with
    | [] => if executor.stopping then executor.setWorker i .returned else executor
    | task :: rest =>
      if executor.stopping && !executor.drainOnShutdown then executor.setWorker i .returned
      else
        { executor.setWorker i (.running task) with
          tasks := rest
          activeTasks := (executor.activeTasks + 1) % u64 }

/-- The next step of worker `i`. -/
def workerLoop (executor : BoundedExecutor Task) (i : Nat) : BoundedExecutor Task :=
  match executor.workers[i]? with
  | some .waiting => executor.takeTask i
  | some (.running task) =>
    { executor.setWorker i (.settling task) with
      activeTasks := u64Sub executor.activeTasks 1 }
  | some (.settling _) =>
    { executor.setWorker i .waiting with
      completedTasks := (executor.completedTasks + 1) % u64 }
  | some .returned | none => executor

variable {executor : BoundedExecutor Task} {i : Nat}

theorem workerLoop_cases (executor : BoundedExecutor Task) (i : Nat) :
    executor.workerLoop i = executor ∨
    (executor.workers[i]? = some .waiting ∧ executor.stopping = true ∧
      (executor.tasks = [] ∨ executor.drainOnShutdown = false) ∧
      executor.workerLoop i = executor.setWorker i .returned) ∨
    (∃ task rest, executor.workers[i]? = some .waiting ∧ executor.tasks = task :: rest ∧
      executor.workerLoop i =
        { executor.setWorker i (.running task) with
          tasks := rest, activeTasks := (executor.activeTasks + 1) % u64 }) ∨
    (∃ task, executor.workers[i]? = some (.running task) ∧
      executor.workerLoop i =
        { executor.setWorker i (.settling task) with
          activeTasks := u64Sub executor.activeTasks 1 }) ∨
    (∃ task, executor.workers[i]? = some (.settling task) ∧
      executor.workerLoop i =
        { executor.setWorker i .waiting with
          completedTasks := (executor.completedTasks + 1) % u64 }) := by
  unfold workerLoop
  match hworker : executor.workers[i]? with
  | none => exact .inl rfl
  | some .returned => exact .inl rfl
  | some (.running task) => exact .inr (.inr (.inr (.inl ⟨task, rfl, rfl⟩)))
  | some (.settling task) => exact .inr (.inr (.inr (.inr ⟨task, rfl, rfl⟩)))
  | some .waiting =>
    dsimp only
    unfold takeTask
    match htasks : executor.tasks with
    | [] =>
      cases hstopping : executor.stopping with
      | false => exact .inl (by simp)
      | true => exact .inr (.inl ⟨rfl, rfl, .inl rfl, by simp⟩)
    | task :: rest =>
      by_cases hreturn : (executor.stopping && !executor.drainOnShutdown) = true
      · obtain ⟨hstopping, hdrain⟩ : executor.stopping = true ∧ executor.drainOnShutdown = false := by
          simpa using hreturn
        exact .inr (.inl ⟨rfl, hstopping, .inr hdrain, by simp [hstopping, hdrain]⟩)
      · exact .inr (.inr (.inl ⟨task, rest, rfl, rfl, by simp [hreturn]⟩))

/-! ## Who holds which task -/

/-- The tasks that run. -/
def running (workers : List (Worker Task)) : List Task :=
  workers.filterMap fun
    | .running task => some task
    | _ => none

/-- The tasks that have returned and are not counted yet. -/
def settling (workers : List (Worker Task)) : List Task :=
  workers.filterMap fun
    | .settling task => some task
    | _ => none

/-- A worker that moves is exchanged for another; what the rest holds stays. -/
theorem set_worker {workers : List (Worker Task)} {before : Worker Task}
    (h : workers[i]? = some before) (after : Worker Task) :
    ∃ rest, (running workers).Perm (running (before :: rest)) ∧
      (settling workers).Perm (settling (before :: rest)) ∧
      (running (workers.set i after)).Perm (running (after :: rest)) ∧
      (settling (workers.set i after)).Perm (settling (after :: rest)) := by
  obtain ⟨hi, rfl⟩ := List.getElem?_eq_some_iff.mp h
  have hold := (List.getElem_cons_eraseIdx_perm hi).symm
  have hnew := List.set_perm_cons_eraseIdx hi after
  exact ⟨workers.eraseIdx i, hold.filterMap _, hold.filterMap _, hnew.filterMap _, hnew.filterMap _⟩

theorem running_length_le (workers : List (Worker Task)) :
    (running workers).length ≤ workers.length :=
  List.length_filterMap_le _ _

end BoundedExecutor

/-! ## Executions -/

inductive Event (Task : Type) where
  | submit (task : Task)
  | shutdown (drain : Bool)
  | worker (i : Nat)
  /-- The thread that shut down waits for the next worker to return. -/
  | join

structure Execution (Task : Type) where
  executor : BoundedExecutor Task
  accepted : List Task := []
  started : List Task := []
  completed : List Task := []
  discarded : List Task := []
  /-- The `drain` of the shutdown that took effect. -/
  shutDown : Option Bool := none
  /-- How many workers it has joined. -/
  joined : Nat := 0

namespace Execution

open BoundedExecutor

variable {Task : Type}

def begun : Option (Worker Task) → Option (Worker Task) → List Task
  | some .waiting, some (.running task) => [task]
  | _, _ => []

def counted : Option (Worker Task) → Option (Worker Task) → List Task
  | some (.settling task), some .waiting => [task]
  | _, _ => []

theorem begun_self (worker : Option (Worker Task)) : begun worker worker = [] := by
  rcases worker with _ | (_ | _ | _ | _) <;> rfl

theorem counted_self (worker : Option (Worker Task)) : counted worker worker = [] := by
  rcases worker with _ | (_ | _ | _ | _) <;> rfl

/-- The executor's step, and what can be seen of it in the queue and in the worker. -/
def step (execution : Execution Task) : Event Task → Execution Task
  | .submit task =>
    let (taken, executor) := execution.executor.trySubmit task
    { execution with
      executor
      accepted := if taken then execution.accepted ++ [task] else execution.accepted }
  | .shutdown drain =>
    let executor := execution.executor.shutdown drain
    { execution with
      executor
      discarded := execution.discarded ++ execution.executor.tasks.drop executor.tasks.length
      shutDown := execution.shutDown.or (some drain) }
  | .worker i =>
    let executor := execution.executor.workerLoop i
    { execution with
      executor
      started := execution.started ++ begun execution.executor.workers[i]? executor.workers[i]?
      completed := execution.completed ++ counted execution.executor.workers[i]? executor.workers[i]? }
  | .join =>
    if execution.shutDown.isSome &&
        execution.executor.workers[execution.joined]?.any Worker.hasReturned then
      { execution with joined := execution.joined + 1 }
    else execution

def run (execution : Execution Task) (events : List (Event Task)) : Execution Task :=
  events.foldl step execution

structure Invariant (execution : Execution Task) : Prop where
  size : execution.executor.workers.length = execution.executor.workerCount
  addressable : execution.executor.workerCount < u64
  bounded : execution.executor.tasks.length ≤ execution.executor.queueCapacity
  order : execution.accepted = execution.started ++ execution.discarded ++ execution.executor.tasks
  held : execution.started.Perm (execution.completed ++
    (settling execution.executor.workers ++ running execution.executor.workers))
  active : execution.executor.activeTasks = (running execution.executor.workers).length
  submitted : execution.executor.submittedTasks = execution.accepted.length % u64
  completed : execution.executor.completedTasks = execution.completed.length % u64
  stopping : execution.executor.stopping = execution.shutDown.isSome
  accepting : execution.executor.accepting = !execution.shutDown.isSome
  draining : ∀ drain, execution.shutDown = some drain → execution.executor.drainOnShutdown = drain
  thrown : execution.discarded ≠ [] → execution.shutDown = some false
  emptied : execution.shutDown = some false → execution.executor.tasks = []
  returned : Worker.returned ∈ execution.executor.workers →
    execution.shutDown.isSome ∧ execution.executor.tasks = []
  joined : ∀ i < execution.joined, execution.executor.workers[i]? = some .returned

variable {execution : Execution Task}
variable {i : Nat} {task : Task} {before : Worker Task}

theorem Invariant.create {workerCount queueCapacity : Nat} {executor : BoundedExecutor Task}
    (h : BoundedExecutor.create workerCount queueCapacity = .ok executor)
    (hworkers : workerCount < u64) :
    Invariant { executor } ∧ executor.workerCount = workerCount ∧
      executor.queueCapacity = queueCapacity := by
  unfold BoundedExecutor.create at h
  split_ifs at h
  obtain rfl := Except.ok.inj h
  have hrunning : running (List.replicate workerCount (.waiting : Worker Task)) = [] :=
    List.filterMap_replicate_of_none rfl
  have hsettling : settling (List.replicate workerCount (.waiting : Worker Task)) = [] :=
    List.filterMap_replicate_of_none rfl
  refine ⟨?_, rfl, rfl⟩
  refine ⟨List.length_replicate, hworkers, Nat.zero_le _, rfl, ?_, ?_, rfl, rfl, rfl, rfl,
    nofun, fun h => absurd rfl h, nofun, fun hmem => ?_, fun i hi => absurd hi (Nat.not_lt_zero i)⟩
  · simp [hrunning, hsettling]
  · simp [hrunning]
  · exact absurd (List.eq_of_mem_replicate hmem) (by simp)

theorem Invariant.refused_iff (h : execution.Invariant) (task : Task) :
    (execution.executor.trySubmit task).1 = false ↔
      execution.shutDown.isSome ∨ execution.executor.queueCapacity ≤ execution.executor.tasks.length := by
  unfold trySubmit
  rw [h.accepting, Bool.not_not]
  split_ifs with hrefused
  · simpa using hrefused
  · simpa using hrefused

theorem Invariant.submit (h : execution.Invariant) (task : Task) :
    (execution.step (.submit task)).Invariant := by
  have hrefused := h.refused_iff task
  show Invariant { execution with
    executor := (execution.executor.trySubmit task).2
    accepted := if (execution.executor.trySubmit task).1 then execution.accepted ++ [task]
      else execution.accepted }
  cases htaken : (execution.executor.trySubmit task).1 with
  | false =>
    have heq : (execution.executor.trySubmit task).2 =
        { execution.executor with rejectedTasks := (execution.executor.rejectedTasks + 1) % u64 } := by
      unfold trySubmit at htaken ⊢
      split_ifs at htaken ⊢
      rfl
    rw [heq]
    exact { h with }
  | true =>
    have heq : (execution.executor.trySubmit task).2 =
        { execution.executor with
          tasks := execution.executor.tasks ++ [task]
          submittedTasks := (execution.executor.submittedTasks + 1) % u64 } := by
      unfold trySubmit at htaken ⊢
      split_ifs at htaken ⊢
      rfl
    rw [htaken] at hrefused
    obtain ⟨hopen, hroom⟩ := not_or.mp (hrefused.not.mp (by decide))
    rw [heq]
    refine { h with bounded := ?_, order := ?_, submitted := ?_, emptied := ?_, returned := ?_ }
    · show (execution.executor.tasks ++ [task]).length ≤ execution.executor.queueCapacity
      rw [List.length_append, List.length_singleton]
      omega
    · show execution.accepted ++ [task] = _ ++ (execution.executor.tasks ++ [task])
      rw [h.order, List.append_assoc]
    · show (execution.executor.submittedTasks + 1) % u64 = (execution.accepted ++ [task]).length % u64
      rw [h.submitted, List.length_append, List.length_singleton, Nat.mod_add_mod]
    · intro hfalse
      exact absurd (by rw [hfalse]; rfl) hopen
    · intro hmem
      exact absurd (h.returned hmem).1 hopen

theorem Invariant.shutdown (h : execution.Invariant) (drain : Bool) :
    (execution.step (.shutdown drain)).Invariant := by
  unfold step BoundedExecutor.shutdown
  dsimp only
  cases hdown : execution.shutDown with
  | some first =>
    -- a later call finds `stopping_` set
    have hstopping : execution.executor.stopping = true := by rw [h.stopping, hdown]; rfl
    rw [if_pos hstopping, List.drop_length, List.append_nil, Option.some_or, ← hdown]
    exact h
  | none =>
    have hstopping : execution.executor.stopping = false := by rw [h.stopping, hdown]; rfl
    have hthrown : execution.discarded = [] := by
      by_contra hne
      rw [h.thrown hne] at hdown
      cases hdown
    have hnever : Worker.returned ∉ execution.executor.workers := by
      intro hmem
      have := (h.returned hmem).1
      rw [hdown] at this
      cases this
    have horder := h.order
    rw [if_neg (by simp [hstopping]), Option.none_or, hthrown, List.nil_append]
    rw [hthrown, List.append_nil] at horder
    cases drain with
    | true =>
      dsimp only
      rw [if_pos rfl, List.drop_length]
      refine { h with order := ?_, stopping := rfl, accepting := rfl, draining := ?_, thrown := ?_,
                      emptied := ?_, returned := ?_ }
      · rw [List.append_nil]
        exact horder
      · intro drain hdrain
        exact Option.some.inj hdrain
      · intro hne
        exact absurd rfl hne
      · intro hfalse
        cases hfalse
      · intro hmem
        exact absurd hmem hnever
    | false =>
      dsimp only
      rw [if_neg (by decide), List.length_nil, List.drop_zero]
      refine { h with bounded := Nat.zero_le _, order := ?_, stopping := rfl, accepting := rfl,
                      draining := ?_, thrown := fun _ => rfl, emptied := fun _ => rfl,
                      returned := ?_ }
      · rw [List.append_nil]
        exact horder
      · intro drain hdrain
        exact Option.some.inj hdrain
      · intro hmem
        exact absurd hmem hnever

theorem Invariant.join (h : execution.Invariant) : (execution.step .join).Invariant := by
  unfold step
  split_ifs with hjoin
  · refine { h with joined := fun i hi => ?_ }
    rcases Nat.lt_succ_iff_lt_or_eq.mp hi with hi | rfl
    · exact h.joined i hi
    · cases hworker : execution.executor.workers[execution.joined]? with
      | none => simp [hworker] at hjoin
      | some worker =>
        cases worker with
        | returned => rfl
        | waiting | running _ | settling _ => simp [hworker, Worker.hasReturned] at hjoin
  · exact h

/-! ### A worker's step -/

theorem getElem?_set_of {workers : List (Worker Task)} (h : workers[i]? = some before)
    (after : Worker Task) : (workers.set i after)[i]? = some after := by
  obtain ⟨hi, -⟩ := List.getElem?_eq_some_iff.mp h
  rw [List.getElem?_set_self hi]

section

variable (h : execution.Invariant)
include h

/-- A worker that has not returned is none of those joined; the joined ones stay as they are. -/
theorem Invariant.joined_set (hworker : execution.executor.workers[i]? = some before)
    (hbefore : before ≠ .returned) (after : Worker Task) :
    ∀ j < execution.joined, (execution.executor.workers.set i after)[j]? = some .returned := by
  intro j hj
  have hreturned := h.joined j hj
  rw [List.getElem?_set_ne]
  · exact hreturned
  · rintro rfl
    rw [hworker] at hreturned
    exact hbefore (Option.some.inj hreturned)

theorem Invariant.returns (hworker : execution.executor.workers[i]? = some .waiting)
    (hstopping : execution.executor.stopping = true)
    (hend : execution.executor.tasks = [] ∨ execution.executor.drainOnShutdown = false) :
    Invariant { execution with executor := execution.executor.setWorker i .returned } := by
  obtain ⟨rest, hrunning, hsettling, hrunning', hsettling'⟩ := set_worker hworker .returned
  have hdown : execution.shutDown.isSome := by rw [← h.stopping, hstopping]
  refine { h with size := ?_, held := ?_, active := ?_, returned := ?_, joined := ?_ }
  · exact List.length_set.trans h.size
  · exact h.held.trans ((hsettling.trans hsettling'.symm).append (hrunning.trans hrunning'.symm)
      |>.append_left _)
  · exact h.active.trans (hrunning.trans hrunning'.symm).length_eq
  · intro _
    refine ⟨hdown, hend.elim id fun hdrain => h.emptied ?_⟩
    obtain ⟨drain, hdrain'⟩ := Option.isSome_iff_exists.mp hdown
    rw [hdrain', ← h.draining drain hdrain', hdrain]
  · exact h.joined_set hworker (by simp) _

/-- A worker that goes on has not returned. -/
theorem Invariant.returned_set {after : Worker Task} (hafter : after ≠ .returned)
    (hmem : Worker.returned ∈ execution.executor.workers.set i after) :
    execution.shutDown.isSome ∧ execution.executor.tasks = [] :=
  h.returned ((List.mem_or_eq_of_mem_set hmem).resolve_right fun heq => hafter heq.symm)

theorem Invariant.starts {rest : List Task}
    (hworker : execution.executor.workers[i]? = some .waiting)
    (htasks : execution.executor.tasks = task :: rest) :
    Invariant { execution with
      executor := { execution.executor.setWorker i (.running task) with
        tasks := rest, activeTasks := (execution.executor.activeTasks + 1) % u64 }
      started := execution.started ++ [task] } := by
  obtain ⟨others, hrunning, hsettling, hrunning', hsettling'⟩ := set_worker hworker (.running task)
  have hsize : (execution.executor.workers.set i (.running task)).length =
      execution.executor.workerCount := List.length_set.trans h.size
  have hmore : (running (execution.executor.workers.set i (.running task))).Perm
      (running execution.executor.workers ++ [task]) :=
    hrunning'.trans ((hrunning.symm.cons task).trans (List.perm_append_singleton task _).symm)
  have hsame := hsettling.trans hsettling'.symm
  have hqueue : execution.executor.tasks ≠ [] := by simp [htasks]
  -- what a shutdown has thrown away leaves nothing to start
  have hthrown : execution.discarded = [] := by
    by_contra hne
    exact hqueue (h.emptied (h.thrown hne))
  refine { h with size := hsize, bounded := ?_, order := ?_, held := ?_, active := ?_,
                  emptied := ?_, returned := ?_, joined := ?_ }
  · have := h.bounded
    rw [htasks, List.length_cons] at this
    exact Nat.le_of_succ_le this
  · show execution.accepted = execution.started ++ [task] ++ execution.discarded ++ rest
    rw [h.order, htasks, hthrown, List.append_nil, List.append_nil, List.append_assoc]
    rfl
  · have := h.held.append_right [task]
    rw [List.append_assoc, List.append_assoc] at this
    exact this.trans ((hsame.append hmore.symm).append_left _)
  · have hle := running_length_le (execution.executor.workers.set i (.running task))
    have hlt := h.addressable
    have hlength := hmore.length_eq
    rw [List.length_append, List.length_singleton] at hlength
    show (execution.executor.activeTasks + 1) % u64 =
      (running (execution.executor.workers.set i (.running task))).length
    rw [h.active, hlength]
    exact Nat.mod_eq_of_lt (by omega)
  · intro hfalse
    exact absurd (h.emptied hfalse) hqueue
  · intro hmem
    exact absurd (h.returned_set (by simp) hmem).2 hqueue
  · exact h.joined_set hworker (by simp) _

theorem Invariant.finishes
    (hworker : execution.executor.workers[i]? = some (.running task)) :
    Invariant { execution with
      executor := { execution.executor.setWorker i (.settling task) with
        activeTasks := u64Sub execution.executor.activeTasks 1 } } := by
  obtain ⟨others, hrunning, hsettling, hrunning', hsettling'⟩ := set_worker hworker (.settling task)
  refine { h with size := ?_, held := ?_, active := ?_, returned := ?_, joined := ?_ }
  · exact List.length_set.trans h.size
  · refine h.held.trans (List.Perm.append_left _ ?_)
    refine (hsettling.append hrunning).trans (List.perm_middle.trans ?_)
    exact (hsettling'.append hrunning').symm
  · have hle := running_length_le execution.executor.workers
    have hsize := h.size
    have hlt := h.addressable
    have hlength : (running execution.executor.workers).length = (running others).length + 1 :=
      hrunning.length_eq
    show u64Sub execution.executor.activeTasks 1 =
      (running (execution.executor.workers.set i (.settling task))).length
    rw [h.active, hlength, hrunning'.length_eq]
    unfold u64Sub
    rw [Nat.add_right_comm, Nat.add_sub_cancel, Nat.add_mod_right]
    exact Nat.mod_eq_of_lt (by omega)
  · exact h.returned_set (by simp)
  · exact h.joined_set hworker (by simp) _

theorem Invariant.counts
    (hworker : execution.executor.workers[i]? = some (.settling task)) :
    Invariant { execution with
      executor := { execution.executor.setWorker i .waiting with
        completedTasks := (execution.executor.completedTasks + 1) % u64 }
      completed := execution.completed ++ [task] } := by
  obtain ⟨others, hrunning, hsettling, hrunning', hsettling'⟩ := set_worker hworker .waiting
  refine { h with size := ?_, held := ?_, active := ?_, completed := ?_, returned := ?_, joined := ?_ }
  · exact List.length_set.trans h.size
  · refine h.held.trans (((hsettling.append hrunning).append_left _).trans ?_)
    show (execution.completed ++ (task :: (settling others ++ running others))).Perm _
    rw [List.append_cons]
    exact (hsettling'.append hrunning').symm.append_left _
  · exact h.active.trans (hrunning.trans hrunning'.symm).length_eq
  · show (execution.executor.completedTasks + 1) % u64 = (execution.completed ++ [task]).length % u64
    rw [h.completed, List.length_append, List.length_singleton, Nat.mod_add_mod]
  · exact h.returned_set (by simp)
  · exact h.joined_set hworker (by simp) _

theorem Invariant.worker (i : Nat) : (execution.step (.worker i)).Invariant := by
  show Invariant { execution with
    executor := execution.executor.workerLoop i
    started := execution.started ++
      begun execution.executor.workers[i]? (execution.executor.workerLoop i).workers[i]?
    completed := execution.completed ++
      counted execution.executor.workers[i]? (execution.executor.workerLoop i).workers[i]? }
  rcases execution.executor.workerLoop_cases i with heq | ⟨hworker, hstopping, hend, heq⟩ |
    ⟨task, rest, hworker, htasks, heq⟩ | ⟨task, hworker, heq⟩ | ⟨task, hworker, heq⟩
  · rw [heq, begun_self, counted_self, List.append_nil, List.append_nil]
    exact h
  all_goals
    have hset := getElem?_set_of hworker
    rw [heq]
    dsimp only [setWorker]
    rw [hset, hworker]
    dsimp only [begun, counted]
    simp only [List.append_nil]
  · exact h.returns hworker hstopping hend
  · exact h.starts hworker htasks
  · exact h.finishes hworker
  · exact h.counts hworker

theorem Invariant.step (event : Event Task) : (execution.step event).Invariant := by
  cases event with
  | submit task => exact h.submit task
  | shutdown drain => exact h.shutdown drain
  | worker i => exact h.worker i
  | join => exact h.join

theorem Invariant.run (events : List (Event Task)) : (execution.run events).Invariant := by
  induction events generalizing execution with
  | nil => exact h
  | cons event rest ih => exact ih (h.step event)

end

theorem step_limits (execution : Execution Task) (event : Event Task) :
    (execution.step event).executor.workerCount = execution.executor.workerCount ∧
      (execution.step event).executor.queueCapacity = execution.executor.queueCapacity := by
  cases event with
  | submit task =>
    show (execution.executor.trySubmit task).2.workerCount = _ ∧
      (execution.executor.trySubmit task).2.queueCapacity = _
    unfold trySubmit
    split_ifs <;> exact ⟨rfl, rfl⟩
  | shutdown drain =>
    show (execution.executor.shutdown drain).workerCount = _ ∧
      (execution.executor.shutdown drain).queueCapacity = _
    unfold BoundedExecutor.shutdown
    split_ifs <;> exact ⟨rfl, rfl⟩
  | worker i =>
    show (execution.executor.workerLoop i).workerCount = _ ∧
      (execution.executor.workerLoop i).queueCapacity = _
    rcases execution.executor.workerLoop_cases i with heq | ⟨-, -, -, heq⟩ | ⟨_, _, -, -, heq⟩ |
      ⟨_, -, heq⟩ | ⟨_, -, heq⟩ <;> rw [heq] <;> exact ⟨rfl, rfl⟩
  | join =>
    unfold Execution.step
    split_ifs <;> exact ⟨rfl, rfl⟩

theorem run_limits (execution : Execution Task) (events : List (Event Task)) :
    (execution.run events).executor.workerCount = execution.executor.workerCount ∧
      (execution.run events).executor.queueCapacity = execution.executor.queueCapacity := by
  induction events generalizing execution with
  | nil => exact ⟨rfl, rfl⟩
  | cons event rest ih =>
    obtain ⟨hcount, hcapacity⟩ := execution.step_limits event
    exact ⟨(ih _).1.trans hcount, (ih _).2.trans hcapacity⟩

/-! ## The accounts -/

/-- The books of an executor with these limits. -/
structure Accounts (execution : Execution Task) (workerCount queueCapacity : Nat) : Prop where
  bounded : execution.executor.tasks.length ≤ queueCapacity
  /-- Tasks start in the order in which they were accepted, each once. -/
  in_order : execution.started <+: execution.accepted
  active : execution.executor.activeTasks = (running execution.executor.workers).length
  few : execution.executor.activeTasks ≤ workerCount
  /-- The counters, as `uint64_t`: a task that has returned and is not counted yet stands for itself. -/
  balance : execution.executor.submittedTasks =
    (execution.executor.tasks.length + execution.executor.activeTasks +
      (settling execution.executor.workers).length + execution.executor.completedTasks +
      execution.discarded.length) % u64
  /-- So where no worker is between the two counters, nothing is missing. -/
  balance_between : settling execution.executor.workers = [] →
    execution.executor.submittedTasks =
      (execution.executor.tasks.length + execution.executor.activeTasks +
        execution.executor.completedTasks + execution.discarded.length) % u64
  /-- The counters are the numbers of tasks as long as these fit. -/
  submitted : execution.executor.submittedTasks = execution.accepted.length % u64
  completed : execution.executor.completedTasks = execution.completed.length % u64
  /-- Only a shutdown without drain throws tasks away. -/
  discarded : execution.discarded ≠ [] → execution.shutDown = some false
  refused : ∀ task, (execution.executor.trySubmit task).1 = false ↔
    execution.shutDown.isSome ∨ execution.executor.tasks.length = queueCapacity
  drained : execution.shutDown = some true → execution.joined = workerCount →
    execution.completed.Perm execution.accepted

theorem Invariant.balance (h : execution.Invariant) :
    execution.executor.submittedTasks =
      (execution.executor.tasks.length + execution.executor.activeTasks +
        (settling execution.executor.workers).length + execution.executor.completedTasks +
        execution.discarded.length) % u64 := by
  have hheld := h.held.length_eq
  have horder := congrArg List.length h.order
  simp only [List.length_append] at hheld horder
  rw [h.submitted, h.active, h.completed, horder, hheld]
  unfold u64
  omega

/-- All workers have returned: none holds a task. -/
theorem Invariant.all_returned (h : execution.Invariant)
    (hjoined : execution.joined = execution.executor.workerCount) :
    ∀ worker ∈ execution.executor.workers, worker = .returned := by
  intro worker hworker
  obtain ⟨i, hi, rfl⟩ := List.getElem_of_mem hworker
  have := h.joined i (by rw [hjoined, ← h.size]; exact hi)
  rw [List.getElem?_eq_getElem hi] at this
  exact Option.some.inj this

theorem Invariant.drained (h : execution.Invariant) (hdown : execution.shutDown = some true)
    (hjoined : execution.joined = execution.executor.workerCount)
    (hworkers : 0 < execution.executor.workerCount) :
    execution.completed.Perm execution.accepted := by
  have hall := h.all_returned hjoined
  have hrunning : running execution.executor.workers = [] :=
    List.filterMap_eq_nil_iff.mpr fun worker hworker => by rw [hall worker hworker]
  have hsettling : settling execution.executor.workers = [] :=
    List.filterMap_eq_nil_iff.mpr fun worker hworker => by rw [hall worker hworker]
  -- the first worker has returned, so the queue is empty
  have hqueue : execution.executor.tasks = [] :=
    (h.returned (List.mem_of_getElem? (h.joined 0 (by omega)))).2
  have hthrown : execution.discarded = [] := by
    by_contra hne
    have := h.thrown hne
    rw [hdown] at this
    cases this
  have hheld := h.held
  rw [hrunning, hsettling, List.append_nil, List.append_nil] at hheld
  rw [h.order, hqueue, hthrown, List.append_nil, List.append_nil]
  exact hheld.symm

theorem executor_accounting {workerCount queueCapacity : Nat} {executor : BoundedExecutor Task}
    (hcreate : BoundedExecutor.create workerCount queueCapacity = .ok executor)
    (hworkers : workerCount < u64) (events : List (Event Task)) :
    Accounts (run { executor } events) workerCount queueCapacity := by
  obtain ⟨hstart, hcount, hcapacity⟩ := Invariant.create hcreate hworkers
  have h := hstart.run events
  obtain ⟨hcount', hcapacity'⟩ := run_limits { executor } events
  have hcount := hcount'.trans hcount
  have hcapacity := hcapacity'.trans hcapacity
  have hpositive : 0 < workerCount := by
    unfold BoundedExecutor.create at hcreate
    split_ifs at hcreate
    omega
  refine ⟨hcapacity ▸ h.bounded, ?_, h.active, ?_, h.balance, ?_, h.submitted, h.completed, h.thrown,
    ?_, ?_⟩
  · rw [h.order, List.append_assoc]
    exact List.prefix_append _ _
  · rw [h.active, ← hcount, ← h.size]
    exact running_length_le _
  · intro hsettling
    have := h.balance
    rwa [hsettling] at this
  · intro task
    have hbounded := h.bounded
    rw [h.refused_iff task, hcapacity, ← hcapacity]
    refine or_congr_right ⟨fun hle => le_antisymm hbounded hle, fun heq => heq.ge⟩
  · intro hdown hjoined
    exact h.drained hdown (hjoined.trans hcount.symm) (hcount ▸ hpositive)

/-- One worker and room for one task: the third is refused while the first runs, and the shutdown lets the
second run. -/
theorem executor_accounting_three :
    Accounts (run { executor := ⟨1, 1, [], [.waiting], true, false, true, 0, 0, 0, 0⟩ }
        [.submit 7, .worker 0, .submit 8, .submit 9, .shutdown true, .worker 0, .worker 0, .worker 0,
          .worker 0, .worker 0, .worker 0, .join]) 1 1 ∧
    (run { executor := ⟨1, 1, [], [.waiting], true, false, true, 0, 0, 0, 0⟩ }
        [.submit 7, .worker 0, .submit 8, .submit 9, .shutdown true, .worker 0, .worker 0, .worker 0,
          .worker 0, .worker 0, .worker 0, .join]).joined = 1 ∧
    (run { executor := ⟨1, 1, [], [.waiting], true, false, true, 0, 0, 0, 0⟩ }
        [.submit 7, .worker 0, .submit 8, .submit 9, .shutdown true, .worker 0, .worker 0, .worker 0,
          .worker 0, .worker 0, .worker 0, .join]).completed = [7, 8] :=
  ⟨@executor_accounting Nat 1 1 _ rfl (by decide) _, by decide, by decide⟩

end Execution

end NebulaKV.Network
