import Mathlib.Algebra.BigOperators.Group.List.Basic
import Mathlib.Algebra.GroupWithZero.Nat
import Mathlib.Tactic.Common

/-!
# Queues of asynchronous tasks

A queue has a limit on the tasks that are under way at a time. A task that is started becomes a
worker; when a worker calls back it is removed and waiting tasks are started in its place. The queue
drains when its last worker has called back, so a queue that never had a task does not drain.
-/

/-- The tasks that wait and the workers that are under way. -/
structure AsyncQueue (τ ω : Type) where
  waiting : List τ
  active : List ω

namespace AsyncQueue

variable {τ ω : Type} (limit : Nat) (start : τ → ω)

/-- Start waiting tasks up to the limit. -/
def fill (queue : AsyncQueue τ ω) : AsyncQueue τ ω where
  waiting := queue.waiting.drop (limit - queue.active.length)
  active := queue.active ++ (queue.waiting.take (limit - queue.active.length)).map start

/-- The queue after these tasks were pushed. -/
def ofTasks (tasks : List τ) : AsyncQueue τ ω := fill limit start ⟨tasks, []⟩

/-- The queue after a worker has called back. -/
def finish (index : Nat) (queue : AsyncQueue τ ω) : AsyncQueue τ ω :=
  fill limit start ⟨queue.waiting, queue.active.eraseIdx index⟩

/-- A worker goes on to another state. -/
def goOn (index : Nat) (worker : ω) (queue : AsyncQueue τ ω) : AsyncQueue τ ω :=
  { queue with active := queue.active.set index worker }

/-- No task is left. -/
def drained (queue : AsyncQueue τ ω) : Bool := queue.waiting.isEmpty && queue.active.isEmpty

/-- The number of tasks that have not called back. -/
def size (queue : AsyncQueue τ ω) : Nat := queue.waiting.length + queue.active.length

/-- The sum of a weight over the tasks and the workers. -/
def weight (task : τ → Nat) (worker : ω → Nat) (queue : AsyncQueue τ ω) : Nat :=
  (queue.waiting.map task).sum + (queue.active.map worker).sum

variable {queue : AsyncQueue τ ω} {index : Nat} {worker : ω}

/-- An element of a list at an index and the rest. -/
theorem perm_eraseIdx {list : List ω} (h : list[index]? = some worker) :
    list.Perm (worker :: list.eraseIdx index) := by
  obtain ⟨hlt, rfl⟩ := List.getElem?_eq_some_iff.1 h
  exact (List.getElem_cons_eraseIdx_perm hlt).symm

/-- A list with a new element at an index. -/
theorem perm_set {list : List ω} (h : list[index]? = some worker) (new : ω) :
    (list.set index new).Perm (new :: list.eraseIdx index) := by
  obtain ⟨hlt, -⟩ := List.getElem?_eq_some_iff.1 h
  have hnew : (list.set index new)[index]? = some new := List.getElem?_set_self hlt
  simpa [List.eraseIdx_set_eq] using perm_eraseIdx hnew

/-- Starting tasks leaves as many to come. -/
@[simp] theorem size_fill (queue : AsyncQueue τ ω) :
    (fill limit start queue).size = queue.size := by
  simp only [size, fill, List.length_drop, List.length_append, List.length_map, List.length_take]
  omega

/-- One task less is to come when a worker has called back. -/
theorem size_finish (h : queue.active[index]? = some worker) :
    (finish limit start index queue).size + 1 = queue.size := by
  have hlength := (perm_eraseIdx h).length_eq
  rw [finish, size_fill]
  simp only [size, hlength, List.length_cons]
  omega

@[simp] theorem size_ofTasks (tasks : List τ) :
    (ofTasks limit start tasks).size = tasks.length := by
  rw [ofTasks, size_fill]
  rfl

/-- A queue that is not drained has tasks to come. -/
theorem drained_eq_false_iff : queue.drained = false ↔ queue.size ≠ 0 := by
  obtain ⟨waiting, active⟩ := queue
  cases waiting <;> cases active <;> simp [drained, size]

/-- A queue with tasks to come has some under way. -/
theorem active_fill_ne_nil (hlimit : 0 < limit) (h : queue.size ≠ 0) :
    (fill limit start queue).active ≠ [] := by
  obtain ⟨waiting, active⟩ := queue
  cases active with
  | cons worker active => simp [fill]
  | nil =>
      cases waiting with
      | nil => simp [size] at h
      | cons task waiting =>
          obtain ⟨limit, rfl⟩ := Nat.exists_eq_succ_of_ne_zero (Nat.ne_of_gt hlimit)
          simp [fill]

/-- Starting tasks does not change the weight if a worker weighs as much as its task. -/
theorem weight_fill {task : τ → Nat} {worker : ω → Nat} (h : ∀ t, worker (start t) = task t)
    (queue : AsyncQueue τ ω) :
    (fill limit start queue).weight task worker = queue.weight task worker := by
  have hsplit := congrArg (fun list : List τ => (list.map task).sum)
    (List.take_append_drop (limit - queue.active.length) queue.waiting)
  have hstart : worker ∘ start = task := funext h
  simp only [List.map_append, List.sum_append] at hsplit
  simp only [weight, fill, List.map_append, List.sum_append, List.map_map, hstart]
  omega

/-- The weight of a queue is at first that of its tasks. -/
theorem weight_ofTasks {task : τ → Nat} {worker : ω → Nat} (h : ∀ t, worker (start t) = task t)
    (tasks : List τ) : (ofTasks limit start tasks).weight task worker = (tasks.map task).sum := by
  rw [ofTasks, weight_fill limit start h]
  simp [weight]

/-- The weight of a worker is gone when it has called back. -/
theorem weight_finish (task : τ → Nat) (weigh : ω → Nat) (h : ∀ t, weigh (start t) = task t)
    (hindex : queue.active[index]? = some worker) :
    (finish limit start index queue).weight task weigh + weigh worker =
      queue.weight task weigh := by
  have hsum := ((perm_eraseIdx hindex).map weigh).sum_eq
  rw [finish, weight_fill limit start h]
  simp only [weight, hsum, List.map_cons, List.sum_cons]
  omega

/-- The weight changes with the worker that goes on. -/
theorem weight_goOn (task : τ → Nat) (weigh : ω → Nat) (new : ω)
    (hindex : queue.active[index]? = some worker) :
    (goOn index new queue).weight task weigh + weigh worker =
      queue.weight task weigh + weigh new := by
  have hold := ((perm_eraseIdx hindex).map weigh).sum_eq
  have hnew := ((perm_set hindex new).map weigh).sum_eq
  simp only [weight, goOn, hold, hnew, List.map_cons, List.sum_cons]
  omega

/-- What holds of all tasks and of the workers they become holds after tasks were started. -/
theorem forall_fill {P : τ → Prop} {Q : ω → Prop} (hstart : ∀ task, P task → Q (start task))
    (hwaiting : ∀ task ∈ queue.waiting, P task) (hactive : ∀ worker ∈ queue.active, Q worker) :
    (∀ task ∈ (fill limit start queue).waiting, P task) ∧
      ∀ worker ∈ (fill limit start queue).active, Q worker := by
  refine ⟨fun task htask => hwaiting task (List.mem_of_mem_drop htask), fun worker hworker => ?_⟩
  rcases List.mem_append.1 hworker with hworker | hworker
  · exact hactive worker hworker
  · obtain ⟨task, htask, rfl⟩ := List.mem_map.1 hworker
    exact hstart task (hwaiting task (List.mem_of_mem_take htask))

/-- What holds of some task or worker holds of some after tasks were started. -/
theorem exists_fill {P : τ → Prop} {Q : ω → Prop} (hstart : ∀ task, P task → Q (start task))
    (h : (∃ task ∈ queue.waiting, P task) ∨ ∃ worker ∈ queue.active, Q worker) :
    (∃ task ∈ (fill limit start queue).waiting, P task) ∨
      ∃ worker ∈ (fill limit start queue).active, Q worker := by
  rcases h with ⟨task, htask, hP⟩ | ⟨worker, hworker, hQ⟩
  · rw [← List.take_append_drop (limit - queue.active.length) queue.waiting,
      List.mem_append] at htask
    rcases htask with htask | htask
    · exact .inr ⟨start task, List.mem_append_right _ (List.mem_map_of_mem htask), hstart task hP⟩
    · exact .inl ⟨task, htask, hP⟩
  · exact .inr ⟨worker, List.mem_append_left _ hworker, hQ⟩

/-- What holds of some task or worker, but not of the worker that has called back, holds of some
afterwards. -/
theorem exists_finish {P : τ → Prop} {Q : ω → Prop} (hstart : ∀ task, P task → Q (start task))
    (hindex : queue.active[index]? = some worker) (hworker : ¬ Q worker)
    (h : (∃ task ∈ queue.waiting, P task) ∨ ∃ worker ∈ queue.active, Q worker) :
    (∃ task ∈ (finish limit start index queue).waiting, P task) ∨
      ∃ worker ∈ (finish limit start index queue).active, Q worker := by
  refine exists_fill limit start hstart (h.imp_right fun ⟨other, hother, hQ⟩ => ⟨other, ?_, hQ⟩)
  rcases List.mem_cons.1 ((perm_eraseIdx hindex).mem_iff.1 hother) with rfl | hother
  · exact absurd hQ hworker
  · exact hother

/-- What holds of some task or worker holds of some after a worker that keeps it went on. -/
theorem exists_goOn {P : τ → Prop} {Q : ω → Prop} {new : ω}
    (hindex : queue.active[index]? = some worker) (hnew : Q worker → Q new)
    (h : (∃ task ∈ queue.waiting, P task) ∨ ∃ worker ∈ queue.active, Q worker) :
    (∃ task ∈ (goOn index new queue).waiting, P task) ∨
      ∃ worker ∈ (goOn index new queue).active, Q worker := by
  refine h.imp_right fun ⟨other, hother, hQ⟩ => ?_
  rcases List.mem_cons.1 ((perm_eraseIdx hindex).mem_iff.1 hother) with rfl | hother
  · exact ⟨new, (perm_set hindex new).mem_iff.2 List.mem_cons_self, hnew hQ⟩
  · exact ⟨other, (perm_set hindex new).mem_iff.2 (List.mem_cons_of_mem _ hother), hQ⟩

/-- What holds of all workers holds of those that are left when one has called back. -/
theorem forall_finish {P : τ → Prop} {Q : ω → Prop} (hstart : ∀ task, P task → Q (start task))
    (hwaiting : ∀ task ∈ queue.waiting, P task) (hactive : ∀ worker ∈ queue.active, Q worker) :
    (∀ task ∈ (finish limit start index queue).waiting, P task) ∧
      ∀ worker ∈ (finish limit start index queue).active, Q worker :=
  forall_fill limit start hstart hwaiting fun worker hworker =>
    hactive worker (List.mem_of_mem_eraseIdx hworker)

/-- What holds of all workers holds after one that keeps it went on. -/
theorem forall_goOn {Q : ω → Prop} {new : ω} (hnew : Q new)
    (hactive : ∀ worker ∈ queue.active, Q worker) :
    ∀ worker ∈ (goOn index new queue).active, Q worker := by
  intro other hother
  rcases List.mem_or_eq_of_mem_set hother with hother | rfl
  · exact hactive other hother
  · exact hnew

end AsyncQueue
