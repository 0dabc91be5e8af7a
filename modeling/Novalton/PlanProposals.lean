/-
The development plan a manager proposes, and how `validate_dependency_graph` puts its tasks in
order (`modules/developer_manager/contracts.py`).

It counts prerequisites and keeps what is ready in a heap, where `validate_graph` takes them
off sets and keeps a sorted list. Step by step the one does what the other does.
-/
import Mathlib.Algebra.Group.Action.Defs
import Mathlib.Algebra.Order.BigOperators.Group.List
import Mathlib.Algebra.Order.Ring.Nat
import Mathlib.Data.List.MinMax
import Novalton.ReviewSummary
import Novalton.WorkflowPlans

namespace Novalton.PlanProposals

open Contracts WorkflowPlans
open Policy (RiskLevel)

/-! ## Fields -/

inductive ReviewRecommendation where
  | notNeeded | recommended | required
deriving DecidableEq, Repr

structure ProposedWorkerTask extends Contracts.ProposedWorkerTask where
  title : Text
  objective : Text
  acceptanceCriteria : List Text
  riskLevel : RiskLevel
deriving DecidableEq

/-- A field of bounded length, and `_safe_text` on it. -/
def safeField (w : WordClass) (most : ℕ) (value : Text) : Py Text := do
  lengthBetween 1 most value
  safeText w value

/-- A list of `ShortText`, safe, without duplicates and sorted. -/
def sortedShortTexts (w : WordClass) (values : List Text) : Py (List Text) := do
  countBetween 1 12 values
  QaReview.sortedTexts 12 (shortText w) values

def ProposedWorkerTask.validate (w : WordClass) (data : ProposedWorkerTask) :
    Py ProposedWorkerTask := do
  let task ← data.toProposedWorkerTask.validate
  let title ← safeField w 200 data.title
  let objective ← safeField w 1500 data.objective
  let acceptanceCriteria ← sortedShortTexts w data.acceptanceCriteria
  return {
    toProposedWorkerTask := task
    title := title
    objective := objective
    acceptanceCriteria := acceptanceCriteria
    riskLevel := data.riskLevel }

structure DevelopmentPlanProposal where
  objectiveInterpretation : Text
  architectureWorkstreams : List Text
  proposedTasks : List ProposedWorkerTask
  qaReview : ReviewRecommendation
  securityReview : ReviewRecommendation
  manualReview : ReviewRecommendation
deriving DecidableEq

def MAX_PROPOSED_TASKS : ℕ := 16

/-- The validators of the fields. -/
def DevelopmentPlanProposal.validateFields (w : WordClass) (data : DevelopmentPlanProposal) :
    Py DevelopmentPlanProposal := do
  let objectiveInterpretation ← safeField w 2000 data.objectiveInterpretation
  let architectureWorkstreams ← sortedShortTexts w data.architectureWorkstreams
  countBetween 1 MAX_PROPOSED_TASKS data.proposedTasks
  let proposedTasks ← data.proposedTasks.mapM (ProposedWorkerTask.validate w)
  return { data with
    objectiveInterpretation := objectiveInterpretation
    architectureWorkstreams := architectureWorkstreams
    proposedTasks := proposedTasks }

/-! ## `validate_dependency_graph` -/

/-- `d[key]`. -/
def item {κ β : Type} [DecidableEq κ] (entries : Dict κ β) (key : κ) : Py β :=
  orRaise (entries.get? key) (.keyError "")

/-- How many prerequisites of each task are counted, and the tasks each is a prerequisite of. -/
structure Counts where
  indegree : Dict Text Int
  dependents : Dict Text (List Text)

/-- One dependency of a task. -/
def Counts.depend (byKey : Dict Text ProposedWorkerTask) (task : Text) (counts : Counts)
    (dependency : Text) : Py Counts := do
  raiseIf (dependency == task) .valueError
  raiseIf (byKey.get? dependency).isNone .valueError
  let count ← item counts.indegree task
  let others ← item counts.dependents dependency
  return ⟨counts.indegree.set task (count + 1), counts.dependents.set dependency (others ++ [task])⟩

/-- The dependencies of a task. -/
def Counts.count (byKey : Dict Text ProposedWorkerTask) (counts : Counts)
    (task : ProposedWorkerTask) : Py Counts :=
  task.dependsOn.foldlM (Counts.depend byKey task.taskKey) counts

/-- What the loop over `ready` works on. A heap is the list of what it holds. -/
structure Queue where
  indegree : Dict Text Int
  ready : List Text

/-- One off the count of a dependent, which is pushed if none is left. -/
def Queue.release (queue : Queue) (dependent : Text) : Py Queue := do
  let count ← item queue.indegree dependent
  return ⟨queue.indegree.set dependent (count - 1), if count - 1 = 0 then dependent :: queue.ready
    else queue.ready⟩

/-- `while ready`, for a number of rounds; `none` if they are not enough. `heappop` gives the
least item. -/
def popAll (dependents : Dict Text (List Text)) : ℕ → Queue → List Text → Py (Option (List Text))
  | rounds, queue, ordered =>
    match queue.ready.min? with
    | .none => .ok (.some ordered)
    | .some key =>
      match rounds with
      | 0 => .ok .none
      | rounds + 1 => do
        let others ← item dependents key
        let queue ← (sorted others).foldlM Queue.release ⟨queue.indegree, queue.ready.erase key⟩
        popAll dependents rounds queue (ordered ++ [key])

/-- `{task.task_key: task for task in tasks}` -/
def byKeyOf (tasks : List ProposedWorkerTask) : Dict Text ProposedWorkerTask :=
  tasks.foldl (fun byKey task => byKey.set task.taskKey task) []

/-- No prerequisite is counted yet. -/
def Counts.zero (byKey : Dict Text ProposedWorkerTask) : Counts :=
  ⟨byKey.map fun entry => (entry.1, 0), byKey.map fun entry => (entry.1, [])⟩

/-- The tasks without prerequisites. -/
def Counts.start (counts : Counts) : Queue :=
  ⟨counts.indegree, (counts.indegree.filter fun entry => entry.2 = 0).map Prod.fst⟩

/-- The tasks in their order. A loop of more rounds than there are tasks gives `none`. -/
def orderTasks (tasks : List ProposedWorkerTask) : Py (Option (List ProposedWorkerTask)) := do
  let byKey := byKeyOf tasks
  raiseIf (byKey.length ≠ tasks.length) .valueError
  let counts ← tasks.foldlM (Counts.count byKey) (Counts.zero byKey)
  match ← popAll counts.dependents byKey.length counts.start [] with
  | .none => return .none
  | .some orderedKeys =>
    raiseIf (orderedKeys.length ≠ byKey.length) .valueError
    let tasks ← orderedKeys.mapM (item byKey)
    return .some tasks

/-- `validate_dependency_graph`. -/
def DevelopmentPlanProposal.validateDependencyGraph (data : DevelopmentPlanProposal) :
    Py (Option DevelopmentPlanProposal) := do
  match ← orderTasks data.proposedTasks with
  | .none => return .none
  | .some tasks => return .some { data with proposedTasks := tasks }

/-- The proposal as it is validated. -/
def DevelopmentPlanProposal.validate (w : WordClass) (data : DevelopmentPlanProposal) :
    Py (Option DevelopmentPlanProposal) := do
  let data ← data.validateFields w
  data.validateDependencyGraph

/-! ## The two loops -/

/-- A queue that stands for what waits: as many are counted as are waited for, and the heap
holds what is ready. -/
structure Stands (dependents : Dict Text (List Text)) (waiting : Waiting) (queue : Queue) :
    Prop where
  indegree : ∀ k, queue.indegree.get? k = (waiting.incoming.get? k).map fun dependencies =>
    (dependencies.length : Int)
  ready : queue.ready.Perm waiting.ready
  sorted : waiting.ready.Pairwise (· ≤ ·)
  known : ∀ k ∈ waiting.ready, (waiting.incoming.get? k).isSome
  listed : ∀ k, (waiting.incoming.get? k).isSome → (dependents.get? k).isSome

variable {dependents : Dict Text (List Text)}

theorem Stands.release {waiting waiting' : Waiting} {queue : Queue} {key dependent : Text}
    (h : Stands dependents waiting queue)
    (hrelease : waiting.release key dependent = .ok waiting') :
    ∃ queue', queue.release dependent = .ok queue' ∧ Stands dependents waiting' queue' := by
  rw [Waiting.release] at hrelease
  split at hrelease
  · cases hrelease
  next dependencies hget =>
    split at hrelease
    next hkey =>
      cases hrelease
      have hlength : (dependencies.length : Int) - 1 = (dependencies.erase key).length := by
        have hpos := List.length_pos_of_mem hkey
        rw [List.length_erase_of_mem hkey]
        omega
      have hcount : queue.indegree.get? dependent = .some (dependencies.length : Int) := by
        rw [h.indegree, hget]
        rfl
      refine ⟨_, by rw [Queue.release, item, hcount]; rfl, ?_⟩
      have hzero : (dependencies.length : Int) - 1 = 0 ↔
          (dependencies.erase key).isEmpty = true := by
        rw [hlength, List.isEmpty_iff_length_eq_zero]
        omega
      have hknown : ∀ k, ((waiting.incoming.set dependent (dependencies.erase key)).get? k).isSome =
          (waiting.incoming.get? k).isSome := by
        intro k
        rw [set_get?]
        split
        next hk => rw [hk, hget]; rfl
        next => rfl
      refine ⟨fun k => ?_, ?_, ?_, fun k hk => ?_, fun k hk => ?_⟩
      · rw [set_get?, set_get?]
        split
        · rw [hlength]
          rfl
        · exact h.indegree k
      · by_cases hempty : (dependencies.erase key).isEmpty = true
        · rw [if_pos (hzero.mpr hempty), if_pos hempty]
          refine List.Perm.trans ?_ (sorted_perm _).symm
          exact (h.ready.cons dependent).trans
            (List.perm_append_singleton dependent waiting.ready).symm
        · rw [if_neg fun heq => hempty (hzero.mp heq), if_neg hempty]
          exact h.ready
      · dsimp only
        split
        · exact sorted_pairwise _
        · exact h.sorted
      · rw [hknown]
        dsimp only at hk
        split at hk
        · rcases List.mem_append.mp (mem_sorted.mp hk) with hk | hk
          · exact h.known k hk
          · rw [List.mem_singleton.mp hk, hget]
            rfl
        · exact h.known k hk
      · exact h.listed k (by rw [← hknown]; exact hk)
    next => cases hrelease

theorem Stands.releaseAll {key : Text} {others : List Text} {waiting waiting' : Waiting}
    {queue : Queue} (h : Stands dependents waiting queue)
    (hrelease : others.foldlM (Waiting.release key) waiting = .ok waiting') :
    ∃ queue', others.foldlM Queue.release queue = .ok queue' ∧
      Stands dependents waiting' queue' := by
  induction others generalizing waiting queue with
  | nil =>
    cases hrelease
    exact ⟨queue, rfl, h⟩
  | cons first others ih =>
    rw [List.foldlM_cons] at hrelease
    cases hfirst : waiting.release key first with
    | error error =>
      rw [hfirst] at hrelease
      cases hrelease
    | ok next =>
      rw [hfirst] at hrelease
      obtain ⟨queue', hqueue, hstands⟩ := h.release hfirst
      obtain ⟨queue'', hrest, hstands⟩ := ih hstands hrelease
      refine ⟨queue'', ?_, hstands⟩
      rw [List.foldlM_cons, hqueue]
      exact hrest

/-- The loops end with the same keys in the same order. -/
theorem Stands.pops {outgoing : Dict Text (List Text)} {rounds : ℕ} {waiting : Waiting}
    {queue : Queue} {ordered result : List Text}
    (hsame : ∀ k others, dependents.get? k = .some others →
    WorkflowPlans.sorted others = WorkflowPlans.sorted (outgoingOf outgoing k))
    (h : Stands dependents waiting queue)
    (hdrain : drain outgoing rounds waiting ordered = .ok (.some result)) :
    popAll dependents rounds queue ordered = .ok (.some result) := by
  induction rounds generalizing waiting queue ordered with
  | zero =>
    obtain ⟨incoming, ready⟩ := waiting
    cases ready with
    | nil =>
      have hnil : queue.ready = [] := List.perm_nil.mp h.ready
      rw [drain] at hdrain
      cases hdrain
      rw [popAll, hnil]
      rfl
    | cons key ready => cases hdrain
  | succ rounds ih =>
    obtain ⟨incoming, ready⟩ := waiting
    cases ready with
    | nil =>
      have hnil : queue.ready = [] := List.perm_nil.mp h.ready
      rw [drain] at hdrain
      cases hdrain
      rw [popAll, hnil]
      rfl
    | cons key ready =>
      have hmin : queue.ready.min? = .some key := by
        rw [List.min?_eq_some_iff]
        refine ⟨h.ready.mem_iff.mpr List.mem_cons_self, fun k hk => ?_⟩
        rcases List.mem_cons.mp (h.ready.mem_iff.mp hk) with rfl | hk
        · exact le_rfl
        · exact (List.pairwise_cons.mp h.sorted).1 k hk
      obtain ⟨others, hothers⟩ :=
        Option.isSome_iff_exists.mp (h.listed key (h.known key List.mem_cons_self))
      have hpopped : Stands dependents ⟨incoming, ready⟩ ⟨queue.indegree, queue.ready.erase key⟩ :=
        { indegree := h.indegree
          ready := by
            have herase := h.ready.erase key
            rw [List.erase_cons_head] at herase
            exact herase
          sorted := (List.pairwise_cons.mp h.sorted).2
          known := fun k hk => h.known k (List.mem_cons_of_mem key hk)
          listed := h.listed }
      rw [drain, ← hsame key others hothers] at hdrain
      cases hfold : (WorkflowPlans.sorted others).foldlM (Waiting.release key) ⟨incoming,
          ready⟩ with
      | error error =>
        rw [hfold] at hdrain
        cases hdrain
      | ok next =>
        rw [hfold] at hdrain
        obtain ⟨queue', hqueue, hstands⟩ := hpopped.releaseAll hfold
        have hrest := ih hstands hdrain
        rw [popAll, hmin]
        simp only [item, hothers, orRaise_some, Py.ok_bind, hqueue]
        exact hrest

/-! ## Counting -/

theorem byKeyOf_keys (tasks : List ProposedWorkerTask) :
    (byKeyOf tasks).keys.Nodup ∧ ∀ k, k ∈ (byKeyOf tasks).keys ↔ k ∈ tasks.map (·.taskKey) :=
  keys_foldl_set (fun task : ProposedWorkerTask => task.taskKey) id tasks

/-- The dictionary has an entry for each task if and only if their keys differ. -/
theorem byKeyOf_length (tasks : List ProposedWorkerTask) : (byKeyOf tasks).length = tasks.length ↔
    (tasks.map (·.taskKey)).Nodup := by
  obtain ⟨hnodup, hmem⟩ := byKeyOf_keys tasks
  have hperm : (byKeyOf tasks).keys.Perm (tasks.map (·.taskKey)).dedup := by
    rw [List.perm_ext_iff_of_nodup hnodup (List.nodup_dedup _)]
    exact fun k => (hmem k).trans List.mem_dedup.symm
  have hlength : (byKeyOf tasks).length = (tasks.map (·.taskKey)).dedup.length := by
    rw [← hperm.length_eq, Dict.keys, List.length_map]
  rw [hlength]
  constructor
  · intro heq
    rw [← List.dedup_eq_self]
    exact (List.dedup_sublist _).eq_of_length (by rw [heq, List.length_map])
  · intro hdistinct
    rw [List.Nodup.dedup hdistinct, List.length_map]

theorem byKeyOf_get? {tasks : List ProposedWorkerTask} (hdistinct : (tasks.map (·.taskKey)).Nodup)
    {task : ProposedWorkerTask} (htask : task ∈ tasks) :
    (byKeyOf tasks).get? task.taskKey = .some task :=
  get?_foldl_set (fun task : ProposedWorkerTask => task.taskKey) id hdistinct htask

/-- How many prerequisites of a key the tasks have. -/
def prerequisites (tasks : List ProposedWorkerTask) (k : Text) : Int :=
  ((tasks.find? fun task => task.taskKey == k).map fun task => (task.dependsOn.length : Int)).getD 0

/-- What is counted after the tasks listed. -/
structure Counted (keys : List Text) (tasks : List ProposedWorkerTask) (counts : Counts) :
    Prop where
  unique : counts.indegree.keys.Nodup
  indegree : ∀ k, counts.indegree.get? k = if k ∈ keys then .some (prerequisites tasks k) else .none
  dependents : ∀ p ∈ keys, ∃ others, counts.dependents.get? p = .some others ∧ others.Nodup ∧
    ∀ k, k ∈ others ↔ ∃ task ∈ tasks, task.taskKey = k ∧ p ∈ task.dependsOn
  none : ∀ p ∉ keys, counts.dependents.get? p = .none

/-- Some dependencies of a task are counted: one each, and the task with their dependents. -/
structure Depended (task : Text) (dependencies : List Text) (counts after : Counts) : Prop where
  unique : counts.indegree.keys.Nodup → after.indegree.keys.Nodup
  indegree : ∀ k, after.indegree.get? k =
    if k = task then (counts.indegree.get? k).map (· + (dependencies.length : Int))
      else counts.indegree.get? k
  dependents : ∀ p, after.dependents.get? p = if p ∈ dependencies then
    (counts.dependents.get? p).map (· ++ [task]) else counts.dependents.get? p

theorem foldlM_depend {byKey : Dict Text ProposedWorkerTask} {task : Text}
    {dependencies : List Text} {counts : Counts} (hdistinct : dependencies.Nodup)
    (htask : (counts.indegree.get? task).isSome)
    (hlisted : ∀ p ∈ byKey.keys, (counts.dependents.get? p).isSome) :
    ((∀ p ∈ dependencies, p ≠ task ∧ p ∈ byKey.keys) ∧
        ∃ after, dependencies.foldlM (Counts.depend byKey task) counts = .ok after ∧
          Depended task dependencies counts after) ∨
      ((∃ p ∈ dependencies, p = task ∨ p ∉ byKey.keys) ∧
        dependencies.foldlM (Counts.depend byKey task) counts = .error .valueError) := by
  induction dependencies generalizing counts with
  | nil => exact .inl ⟨by simp, counts, rfl, ⟨id, by simp, by simp⟩⟩
  | cons first dependencies ih =>
    obtain ⟨hfresh, hrest⟩ := List.nodup_cons.mp hdistinct
    have hfound : (byKey.get? first).isNone = true ↔ first ∉ byKey.keys := by
      rw [Option.isNone_iff_eq_none, Dict.get?, Option.map_eq_none_iff, List.find?_eq_none,
        Dict.keys, List.mem_map]
      simp only [decide_eq_true_eq]
      constructor
      · rintro h ⟨entry, hentry, hkey⟩
        exact h entry hentry hkey
      · exact fun h entry hentry hkey => h ⟨entry, hentry, hkey⟩
    by_cases hself : first = task
    · refine .inr ⟨⟨first, List.mem_cons_self, .inl hself⟩, ?_⟩
      rw [List.foldlM_cons, Counts.depend, hself, beq_self_eq_true]
      rfl
    · have hne : (first == task) = false := beq_false_of_ne hself
      by_cases hkey : first ∈ byKey.keys
      · obtain ⟨count, hcount⟩ := Option.isSome_iff_exists.mp htask
        obtain ⟨others, hothers⟩ := Option.isSome_iff_exists.mp (hlisted first hkey)
        have hsome : (byKey.get? first).isNone = false := by
          rw [Bool.eq_false_iff]
          exact fun h => hfound.mp h hkey
        set next : Counts :=
          ⟨counts.indegree.set task (count + 1),
          counts.dependents.set first (others ++ [task])⟩ with hnext
        have hstep : Counts.depend byKey task counts first = .ok next := by
          simp only [Counts.depend, hne, hsome, raiseIf_false, Py.ok_bind, item, hcount, hothers,
            orRaise_some]
          rfl
        have hnextTask : (next.indegree.get? task).isSome := by
          rw [hnext, set_get?, if_pos rfl]
          rfl
        have hnextListed : ∀ p ∈ byKey.keys, (next.dependents.get? p).isSome := by
          intro p hp
          rw [hnext, set_get?]
          split
          · rfl
          · exact hlisted p hp
        have hbind : (first :: dependencies).foldlM (Counts.depend byKey task) counts =
            dependencies.foldlM (Counts.depend byKey task) next := by
          rw [List.foldlM_cons, hstep]
          rfl
        rw [hbind]
        rcases ih hrest hnextTask hnextListed with ⟨hall, after, hafter, h⟩ |
          ⟨⟨p, hp, hwhy⟩, herror⟩
        · refine .inl ⟨List.forall_mem_cons.mpr ⟨⟨hself, hkey⟩, hall⟩, after, hafter, fun hkeys =>
            ?_, fun k => ?_, fun p => ?_⟩
          · exact h.unique (set_keys_nodup hkeys _ _)
          · rw [h.indegree]
            by_cases hk : k = task
            · rw [if_pos hk, if_pos hk, hk, hnext, set_get?, if_pos rfl, hcount, Option.map_some,
                Option.map_some, List.length_cons, Option.some.injEq]
              push_cast
              omega
            · rw [if_neg hk, if_neg hk, hnext, set_get?, if_neg hk]
          · rw [h.dependents, hnext, set_get?]
            by_cases hp : p = first
            · rw [hp, if_neg hfresh, if_pos rfl, if_pos List.mem_cons_self, hothers]
              rfl
            · rw [if_neg hp]
              simp [hp]
        · exact .inr ⟨⟨p, List.mem_cons_of_mem first hp, hwhy⟩, herror⟩
      · refine .inr ⟨⟨first, List.mem_cons_self, .inr hkey⟩, ?_⟩
        rw [List.foldlM_cons, Counts.depend, hne, hfound.mpr hkey]
        rfl

theorem Counted.count {byKey : Dict Text ProposedWorkerTask} {tasks : List ProposedWorkerTask}
    {counts after : Counts} (h : Counted byKey.keys tasks counts) {task : ProposedWorkerTask}
    (hkey : task.taskKey ∈ byKey.keys) (hfresh : task.taskKey ∉ tasks.map (·.taskKey))
    (hafter : Depended task.taskKey task.dependsOn counts after) :
    Counted byKey.keys (tasks ++ [task]) after := by
  have hnone : tasks.find? (fun other => other.taskKey == task.taskKey) = .none := by
    rw [List.find?_eq_none]
    exact fun other hother heq => hfresh (beq_iff_eq.mp heq ▸ List.mem_map_of_mem hother)
  refine ⟨hafter.unique h.unique, fun k => ?_, fun p hp => ?_, fun p hp => ?_⟩
  · rw [hafter.indegree, h.indegree]
    by_cases hk : k = task.taskKey
    · rw [hk, if_pos rfl, if_pos hkey, prerequisites, prerequisites, List.find?_append, hnone]
      simp [hkey]
    · have hother : (task.taskKey == k) = false := beq_false_of_ne (Ne.symm hk)
      rw [if_neg hk, prerequisites, prerequisites, List.find?_append, List.find?_singleton, hother]
      simp
  · obtain ⟨others, hothers, hnodup, hmem⟩ := h.dependents p hp
    have happend : ∀ k, (∃ other ∈ tasks ++ [task], other.taskKey = k ∧ p ∈ other.dependsOn) ↔
        (∃ other ∈ tasks, other.taskKey = k ∧ p ∈ other.dependsOn) ∨
            (task.taskKey = k ∧ p ∈ task.dependsOn) := by
      intro k
      simp [or_and_right, exists_or]
    rw [hafter.dependents, hothers]
    by_cases hp : p ∈ task.dependsOn
    · refine ⟨others ++ [task.taskKey], by rw [if_pos hp]; rfl, ?_, fun k => ?_⟩
      · rw [List.nodup_append]
        refine ⟨hnodup, List.nodup_singleton _, fun a ha b hb heq => ?_⟩
        rw [List.mem_singleton.mp hb] at heq
        obtain ⟨other, hother, hotherKey, -⟩ := (hmem a).mp ha
        exact hfresh (heq ▸ hotherKey ▸ List.mem_map_of_mem hother)
      · rw [happend, List.mem_append, hmem, List.mem_singleton]
        exact or_congr_right ⟨fun heq => ⟨heq.symm, hp⟩, fun hk => hk.1.symm⟩
    · refine ⟨others, by rw [if_neg hp], hnodup, fun k => ?_⟩
      rw [happend, hmem]
      exact ⟨.inl, fun hk => hk.resolve_right fun h => hp h.2⟩
  · rw [hafter.dependents, h.none p hp]
    split
    · rfl
    · rfl

/-- The counts of all tasks, or the error for one with a prerequisite that is itself or no task. -/
theorem foldlM_count {byKey : Dict Text ProposedWorkerTask} {done tasks : List ProposedWorkerTask}
    {counts : Counts} (hdistinct : ((done ++ tasks).map (·.taskKey)).Nodup)
    (hkeys : ∀ task ∈ tasks, task.taskKey ∈ byKey.keys)
    (hdependencies : ∀ task ∈ tasks, task.dependsOn.Nodup) (h : Counted byKey.keys done counts) :
    ((∀ task ∈ tasks, ∀ p ∈ task.dependsOn, p ≠ task.taskKey ∧ p ∈ byKey.keys) ∧
        ∃ after, tasks.foldlM (Counts.count byKey) counts = .ok after ∧ Counted byKey.keys
          (done ++ tasks) after) ∨
      ((∃ task ∈ tasks, ∃ p ∈ task.dependsOn, p = task.taskKey ∨ p ∉ byKey.keys) ∧
        tasks.foldlM (Counts.count byKey) counts = .error .valueError) := by
  induction tasks generalizing done counts with
  | nil => exact .inl ⟨by simp, counts, rfl, by rw [List.append_nil]; exact h⟩
  | cons task tasks ih =>
    have hkey := hkeys task List.mem_cons_self
    have hfresh : task.taskKey ∉ done.map (·.taskKey) := by
      rw [List.map_append, List.nodup_append] at hdistinct
      exact fun hmem => hdistinct.2.2 _ hmem _ List.mem_cons_self rfl
    have hassoc : done ++ task :: tasks = (done ++ [task]) ++ tasks := by simp
    rw [hassoc] at hdistinct ⊢
    rcases @foldlM_depend byKey task.taskKey task.dependsOn counts
      (hdependencies task List.mem_cons_self)
      (by rw [h.indegree, if_pos hkey]; rfl)
      (fun p hp => by obtain ⟨others, hothers, -⟩ := h.dependents p hp; rw [hothers]; rfl) with
      ⟨hall, after, hafter, hdepended⟩ | ⟨hwhy, herror⟩
    · have hbind : (task :: tasks).foldlM (Counts.count byKey) counts =
          tasks.foldlM (Counts.count byKey) after := by
        rw [List.foldlM_cons, Counts.count, hafter]
        rfl
      rw [hbind]
      rcases ih hdistinct (fun other hother => hkeys other (List.mem_cons_of_mem task hother))
        (fun other hother => hdependencies other (List.mem_cons_of_mem task hother))
            (h.count hkey hfresh hdepended) with
        ⟨hrest, hcounts⟩ | ⟨⟨other, hother, hwhy⟩, herror⟩
      · exact .inl ⟨List.forall_mem_cons.mpr ⟨hall, hrest⟩, hcounts⟩
      · exact .inr ⟨⟨other, List.mem_cons_of_mem task hother, hwhy⟩, herror⟩
    · refine .inr ⟨⟨task, List.mem_cons_self, hwhy⟩, ?_⟩
      rw [List.foldlM_cons, Counts.count, herror]
      rfl

theorem counted_zero {byKey : Dict Text ProposedWorkerTask} (hkeys : byKey.keys.Nodup) :
    Counted byKey.keys [] (Counts.zero byKey) := by
  have hmap : ∀ {β : Type} (value : β) (k : Text),
      Dict.get? (byKey.map fun entry => (entry.1, value)) k = if k ∈ byKey.keys then .some value
          else .none := by
    intro β value k
    clear hkeys
    induction byKey with
    | nil => rfl
    | cons entry byKey ih =>
      by_cases hk : entry.1 = k
      · simp [Dict.get?, Dict.keys, hk]
      · have hskip : Dict.get? ((entry :: byKey).map fun entry => (entry.1, value)) k =
            Dict.get? (byKey.map fun entry => (entry.1, value)) k := by
          simp [Dict.get?, hk]
        have hcons : Dict.keys (entry :: byKey) = entry.1 :: Dict.keys byKey := rfl
        simp only [hskip, ih, hcons, List.mem_cons, Ne.symm hk, false_or]
  refine ⟨?_, fun k => hmap 0 k, fun p hp => ⟨[], ?_, List.nodup_nil, by simp⟩,
    fun p hp => (hmap [] p).trans (if_neg hp)⟩
  · have hsame : Dict.keys (byKey.map fun entry => (entry.1, (0 : Int))) = byKey.keys := by
      simp [Dict.keys, Function.comp_def]
    rw [Counts.zero, hsame]
    exact hkeys
  · exact (hmap [] p).trans (if_pos hp)

/-! ## The two validators -/

/-- A plan with the keys and dependencies of the tasks. -/
def SameGraph (tasks : List ProposedWorkerTask) (steps : List WorkflowStepCreate) : Prop :=
  tasks.map (fun task => (task.taskKey, task.dependsOn)) = steps.map fun step =>
    (step.stepKey, step.dependsOn)

section
variable {tasks : List ProposedWorkerTask} {steps : List WorkflowStepCreate}

theorem SameGraph.keys (h : SameGraph tasks steps) : tasks.map (·.taskKey) = steps.map
    (·.stepKey) := by
  have hfst := congrArg (List.map Prod.fst) h
  rw [List.map_map, List.map_map] at hfst
  exact hfst

theorem SameGraph.length (h : SameGraph tasks steps) : tasks.length = steps.length := by
  have hlength := congrArg List.length h
  rw [List.length_map, List.length_map] at hlength
  exact hlength

/-- What is said of a key and its dependencies holds of a task as of a step. -/
theorem SameGraph.exists_iff (h : SameGraph tasks steps) (P : Text → List Text → Prop) :
    (∃ task ∈ tasks, P task.taskKey task.dependsOn) ↔ ∃ step ∈ steps,
    P step.stepKey step.dependsOn := by
  have hentries : ∀ entry : Text × List Text,
    (∃ task ∈ tasks, (task.taskKey, task.dependsOn) = entry) ↔
      ∃ step ∈ steps, (step.stepKey, step.dependsOn) = entry := by
    intro entry
    rw [← List.mem_map (f := fun task : ProposedWorkerTask => (task.taskKey, task.dependsOn)),
      ← List.mem_map (f := fun step : WorkflowStepCreate => (step.stepKey, step.dependsOn)), h]
  constructor
  · rintro ⟨task, htask, hP⟩
    obtain ⟨step, hstep, heq⟩ := (hentries _).mp ⟨task, htask, rfl⟩
    obtain ⟨hkey, hdepends⟩ := Prod.mk.inj heq
    exact ⟨step, hstep, hkey ▸ hdepends ▸ hP⟩
  · rintro ⟨step, hstep, hP⟩
    obtain ⟨task, htask, heq⟩ := (hentries _).mpr ⟨step, hstep, rfl⟩
    obtain ⟨hkey, hdepends⟩ := Prod.mk.inj heq
    exact ⟨task, htask, hkey ▸ hdepends ▸ hP⟩

theorem SameGraph.start (h : SameGraph tasks steps) (hdistinct : (tasks.map (·.taskKey)).Nodup)
    (hdependencies : ∀ task ∈ tasks, task.dependsOn.Nodup) {keys : List Text}
    (hkeys : ∀ k, k ∈ keys ↔ k ∈ tasks.map (·.taskKey)) {counts : Counts}
    (hcounts : Counted keys tasks counts) {edges : Edges} (hedges : Recorded steps edges) :
    Stands counts.dependents edges.start counts.start := by
  have hincoming : ∀ task ∈ tasks, edges.incoming.get? task.taskKey = .some task.dependsOn := by
    intro task htask
    rw [hedges.incoming]
    have hstep := (h.exists_iff fun key dependencies => key = task.taskKey ∧
      task.dependsOn = dependencies.dedup).mp
      ⟨task, htask, rfl, (List.Nodup.dedup (hdependencies task htask)).symm⟩
    exact hstep
  have hnone : ∀ k ∉ keys, edges.incoming.get? k = .none := by
    intro k hk
    cases hget : edges.incoming.get? k with
    | none => rfl
    | some dependencies =>
      obtain ⟨step, hstep, rfl, -⟩ := (hedges.incoming k dependencies).mp hget
      exact absurd ((hkeys _).mpr (by rw [h.keys]; exact List.mem_map_of_mem hstep)) hk
  have hindegree : ∀ k, counts.indegree.get? k = (edges.incoming.get? k).map fun dependencies =>
      (dependencies.length : Int) := by
    intro k
    rw [hcounts.indegree]
    by_cases hk : k ∈ keys
    · obtain ⟨task, htask, rfl⟩ := List.mem_map.mp ((hkeys k).mp hk)
      have hfound : tasks.find? (fun other => other.taskKey == task.taskKey) = .some task :=
        @find?_key _ _ _ _ (fun other : ProposedWorkerTask => other.taskKey) tasks hdistinct task
          htask
      rw [if_pos hk, hincoming task htask, prerequisites, hfound]
      rfl
    · rw [if_neg hk, hnone k hk]
      rfl
  refine ⟨hindegree, ?_, sorted_pairwise _, fun k hk => ?_, fun k hk => ?_⟩
  · have hwaiting : ((edges.incoming.filter fun entry => entry.2.isEmpty).map Prod.fst).Nodup :=
      (List.filter_sublist.map Prod.fst).nodup hedges.keys
    have hqueue : ((counts.indegree.filter fun entry => entry.2 = 0).map Prod.fst).Nodup :=
      (List.filter_sublist.map Prod.fst).nodup hcounts.unique
    refine List.Perm.trans ?_ (sorted_perm _).symm
    rw [Counts.start, List.perm_ext_iff_of_nodup hqueue hwaiting]
    intro k
    have hzero : k ∈ (counts.indegree.filter fun entry => entry.2 = 0).map Prod.fst ↔
        counts.indegree.get? k = .some 0 := by
      rw [Dict.get?_eq_some_iff hcounts.unique, List.mem_map]
      constructor
      · rintro ⟨⟨key, count⟩, hentry, rfl⟩
        obtain ⟨hentry, hcount⟩ := List.mem_filter.mp hentry
        have hcount : count = 0 := of_decide_eq_true hcount
        rw [hcount] at hentry
        exact hentry
      · exact fun hentry => ⟨(k, 0), List.mem_filter.mpr ⟨hentry, rfl⟩, rfl⟩
    have hempty : k ∈ (edges.incoming.filter fun entry => entry.2.isEmpty).map Prod.fst ↔
        edges.incoming.get? k = .some [] := by
      rw [Dict.get?_eq_some_iff hedges.keys, List.mem_map]
      constructor
      · rintro ⟨⟨key, dependencies⟩, hentry, rfl⟩
        obtain ⟨hentry, hnil⟩ := List.mem_filter.mp hentry
        have hnil : dependencies = [] := List.isEmpty_iff.mp hnil
        rw [hnil] at hentry
        exact hentry
      · exact fun hentry => ⟨(k, []), List.mem_filter.mpr ⟨hentry, rfl⟩, rfl⟩
    rw [hzero, hempty, hindegree, Option.map_eq_some_iff]
    constructor
    · rintro ⟨dependencies, hget, hlength⟩
      rw [hget, List.length_eq_zero_iff.mp (Int.ofNat_eq_zero.mp hlength)]
    · exact fun hget => ⟨[], hget, rfl⟩
  · rw [Edges.start, mem_sorted, List.mem_map] at hk
    obtain ⟨⟨key, dependencies⟩, hentry, rfl⟩ := hk
    have hget : edges.incoming.get? key = .some dependencies :=
      (Dict.get?_eq_some_iff hedges.keys).mpr (List.mem_of_mem_filter hentry)
    show (edges.incoming.get? key).isSome
    rw [hget]
    rfl
  · have hmem : k ∈ keys := by
      by_contra hout
      have hget : (edges.incoming.get? k).isSome := hk
      rw [hnone k hout] at hget
      cases hget
    obtain ⟨others, hothers, -⟩ := hcounts.dependents k hmem
    rw [hothers]
    rfl

/-- The tasks in an order of their keys. -/
theorem mapM_byKeyOf (hdistinct : (tasks.map (·.taskKey)).Nodup) {stored : List ProposedWorkerTask}
    (hstored : stored ⊆ tasks) :
    (stored.map (·.taskKey)).mapM (item (byKeyOf tasks)) = .ok stored := by
  rw [List.mapM_map]
  refine mapM_self fun task htask => ?_
  rw [Function.comp_apply, item, byKeyOf_get? hdistinct (hstored htask)]
  rfl

/-- What the two validators make of the same graph. -/
inductive Agree (tasks : List ProposedWorkerTask) (steps : List WorkflowStepCreate) : Prop
  | accepted (stored : List ProposedWorkerTask) : stored.Perm tasks → orderTasks tasks = .ok
    (.some stored) →
      validateGraph steps = .ok (.some (stored.map (·.taskKey))) → Agree tasks steps
  | refused (message : String) : orderTasks tasks = .error .valueError →
      validateGraph steps = .error (invalidGraph message) →
      Agree tasks steps

theorem SameGraph.agree (h : SameGraph tasks steps) (hdistinct : (tasks.map (·.taskKey)).Nodup)
    (hdependencies : ∀ task ∈ tasks, task.dependsOn.Nodup) : Agree tasks steps := by
  have hsteps : (steps.map (·.stepKey)).Nodup := by
    rw [← h.keys]
    exact hdistinct
  obtain ⟨hnodup, hkeys⟩ := byKeyOf_keys tasks
  have hlength := (byKeyOf_length tasks).mpr hdistinct
  have horder : orderTasks tasks = (do
      let counts ← tasks.foldlM (Counts.count (byKeyOf tasks)) (Counts.zero (byKeyOf tasks))
      match ← popAll counts.dependents tasks.length counts.start [] with
      | .none => return .none
      | .some orderedKeys =>
        raiseIf (orderedKeys.length ≠ tasks.length) .valueError
        let tasks ← orderedKeys.mapM (item (byKeyOf tasks))
        return .some tasks) := by
    simp only [orderTasks, hlength, ne_eq, not_true_eq_false, decide_false, raiseIf_false,
      Py.ok_bind]
  rcases @foldlM_count (byKeyOf tasks) [] tasks _ hdistinct (fun task htask =>
    (hkeys _).mpr (List.mem_map_of_mem htask)) hdependencies
    (counted_zero hnodup) with ⟨hall, counts, hcount, hcounts⟩ |
      ⟨⟨task, htask, p, hp, hwhy⟩, herror⟩
  · rcases validateGraph_cases hsteps with ⟨edges, ordered, hedges, -, hdrain, hleast, -,
      hvalidate⟩ | ⟨-, step, hstep, hbad⟩
    · have hstart := h.start hdistinct hdependencies hkeys hcounts hedges
      have hpop : popAll counts.dependents tasks.length counts.start [] = .ok (.some ordered) := by
        rw [h.length]
        refine hstart.pops (fun k others hothers => ?_) hdrain
        by_cases hk : k ∈ (byKeyOf tasks).keys
        · obtain ⟨others', hothers', hnodup', hmem⟩ := hcounts.dependents k hk
          rw [hothers, Option.some.injEq] at hothers'
          subst hothers'
          have hperm : others.Perm (outgoingOf edges.outgoing k) := by
            rw [List.perm_ext_iff_of_nodup hnodup' (hedges.distinct k)]
            intro key
            rw [hmem, hedges.outgoing]
            exact h.exists_iff fun other dependencies => other = key ∧ k ∈ dependencies
          exact ((sorted_perm _).trans (hperm.trans (sorted_perm _).symm)).eq_of_pairwise
            (fun a b _ _ => le_antisymm)
            (sorted_pairwise _) (sorted_pairwise _)
        · rw [hcounts.none k hk] at hothers
          cases hothers
      rw [hcount, Py.ok_bind, hpop, Py.ok_bind] at horder
      by_cases hall : ordered.length = steps.length
      · rw [if_neg (not_not_intro hall)] at hvalidate
        have hcard : (planGraph steps).vertices.card = steps.length := by
          rw [planGraph, List.toFinset_card_of_nodup hsteps, List.length_map]
        have htop := hleast.topological_iff_length.mpr (hall.trans hcard.symm)
        have hperm : ordered.Perm (tasks.map (·.taskKey)) := by
          rw [List.perm_ext_iff_of_nodup htop.nodup hdistinct, h.keys]
          exact fun k => (htop.mem k).trans mem_vertices
        have hcomp : Relation.Comp (fun l m => l = m.map (·.taskKey)) List.Perm ordered tasks := by
          rw [List.eq_map_comp_perm]
          exact hperm
        obtain ⟨stored, rfl, hstored⟩ := hcomp
        refine .accepted stored hstored ?_ hvalidate
        have hlong : decide ((stored.map (·.taskKey)).length ≠ tasks.length) = false := by
          rw [decide_eq_false_iff_not, not_not, hall, h.length]
        rw [horder]
        show (raiseIf _ _ >>= _) = _
        rw [hlong, raiseIf_false, Py.ok_bind, mapM_byKeyOf hdistinct hstored.subset]
        rfl
      · rw [if_pos hall] at hvalidate
        refine .refused _ ?_ hvalidate
        have hshort : decide (ordered.length ≠ tasks.length) = true := by
          rw [decide_eq_true_iff, h.length]
          exact hall
        rw [horder]
        show (raiseIf _ _ >>= _) = _
        rw [hshort]
        rfl
    · -- every prerequisite that was counted is another task
      obtain ⟨task, htask, hsame⟩ := (h.exists_iff fun key dependencies => key ∈ dependencies ∨
        ¬dependencies ⊆ steps.map (·.stepKey)).mpr
        ⟨step, hstep, hbad⟩
      rcases hsame with hself | hmissing
      · exact absurd rfl (hall task htask _ hself).1
      · refine absurd (fun p hp => ?_) hmissing
        rw [← h.keys]
        exact (hkeys p).mp (hall task htask p hp).2
  · have hbad : ¬Acceptable steps := by
      intro haccept
      obtain ⟨step, hstep, hsame⟩ := (h.exists_iff fun key dependencies => p ∈ dependencies ∧
        (p = key ∨ p ∉ (byKeyOf tasks).keys)).mp
        ⟨task, htask, hp, hwhy⟩
      rcases hsame.2 with hself | hmissing
      · exact haccept.irreflexive step hstep (hself ▸ hsame.1)
      · refine hmissing ((hkeys p).mpr ?_)
        rw [h.keys]
        exact haccept.references step hstep p hsame.1
    rcases validateGraph_spec hsteps with ⟨order, -, haccept, -⟩ | ⟨⟨message, hmessage⟩, -⟩
    · exact absurd haccept hbad
    · refine .refused message ?_ hmessage
      rw [horder, herror]
      rfl

theorem distinct_of_orderTasks {result : Option (List ProposedWorkerTask)}
    (h : orderTasks tasks = .ok result) :
    (tasks.map (·.taskKey)).Nodup := by
  simp only [orderTasks, Py.bind_eq_ok, raiseIf_eq_ok] at h
  obtain ⟨-, hlength, -⟩ := h
  rw [← byKeyOf_length]
  exact not_not.mp (of_decide_eq_false hlength)

theorem SameGraph.order_iff (h : SameGraph tasks steps)
    (hdependencies : ∀ task ∈ tasks, task.dependsOn.Nodup) (order : List Text) :
    (∃ stored, orderTasks tasks = .ok (.some stored) ∧ stored.map (·.taskKey) = order) ↔
      (steps.map (·.stepKey)).Nodup ∧ validateGraph steps = .ok (.some order) := by
  constructor
  · rintro ⟨stored, hstored, rfl⟩
    have hdistinct := distinct_of_orderTasks hstored
    refine ⟨h.keys ▸ hdistinct, ?_⟩
    cases h.agree hdistinct hdependencies with
    | accepted again hperm hagain hvalidate =>
      rw [hstored] at hagain
      cases hagain
      exact hvalidate
    | refused message herror _ =>
      rw [hstored] at herror
      cases herror
  · rintro ⟨hdistinct, horder⟩
    cases h.agree (h.keys ▸ hdistinct) hdependencies with
    | accepted stored hperm hstored hvalidate =>
      rw [horder] at hvalidate
      cases hvalidate
      exact ⟨stored, hstored, rfl⟩
    | refused message _ hrefused =>
      rw [horder] at hrefused
      cases hrefused

end

/-! ## Validating again -/

variable {w : WordClass}

theorem distinct_ok {values : List Text} {u : Unit} : distinct values = .ok u ↔ values.Nodup := by
  rw [distinct, raiseIf_eq_ok, Bool.not_eq_false', decide_eq_true_eq]

theorem taskKeyItem_again {value text : Text} (h : taskKeyItem value = .ok text) :
    taskKeyItem text = .ok text := by
  obtain ⟨hfit, hchars⟩ := taskKeyItem_ok h
  have hfull : TASK_KEY.fullmatch text = true := by
    simp only [taskKeyItem, boundedText, Py.bind_eq_ok, raiseIf_eq_ok, Bool.not_eq_false'] at h
    obtain ⟨_, -, -, -, -, hfull, heq⟩ := h
    cases heq
    exact hfull
  have hlower : text.map Char.toLower = text := by
    refine (List.map_congr_left fun c hc => QaReview.toLower_plain ?_).trans (List.map_id' text)
    rw [plainChar, hchars c hc, Bool.true_or, Bool.true_or]
  have hstrip : strip text = text := hfit.tight.stripped_eq
  rw [taskKeyItem, boundedText, trim_eq hfit.tight, QaReview.lengthBetween_fit hfit, Py.ok_bind,
    pure_bind, hfull, Bool.not_true, raiseIf_false, Py.ok_bind, hstrip, hlower]
  show (raiseIf (!TASK_KEY.fullmatch text) _ >>= _) = _
  rw [hfull]
  rfl

theorem shortText_again {value text : Text} (h : shortText w value = .ok text) :
    shortText w text = .ok text := by
  simp only [shortText, Py.bind_eq_ok, lengthBetween_ok] at h
  obtain ⟨-, hlength, htext⟩ := h
  obtain ⟨hfit, hcredential⟩ := QaReview.fit_of_safeText hlength.2 htext
  rw [shortText_fit hfit, hcredential]
  rfl

theorem safeField_again {most : ℕ} {value text : Text} (h : safeField w most value = .ok text) :
    safeField w most text = .ok text := by
  simp only [safeField, Py.bind_eq_ok, lengthBetween_ok] at h
  obtain ⟨-, hlength, htext⟩ := h
  obtain ⟨hfit, hcredential⟩ := QaReview.fit_of_safeText hlength.2 htext
  rw [safeField, QaReview.lengthBetween_fit hfit, Py.ok_bind,
    QaReview.safeText_fit hfit hcredential]

theorem sortedTexts_length {most : ℕ} {validate : Text → Py Text} {values out : List Text}
    (h : QaReview.sortedTexts most validate values = .ok out) :
    out.length = values.length := by
  simp only [QaReview.sortedTexts, Py.bind_eq_ok] at h
  obtain ⟨-, -, texts, htexts, -, -, heq⟩ := h
  cases heq
  rw [List.length_insertionSort, mapM_ok_length htexts]

theorem sortedShortTexts_again {values texts : List Text}
    (h : sortedShortTexts w values = .ok texts) : sortedShortTexts w texts = .ok texts := by
  simp only [sortedShortTexts, Py.bind_eq_ok, countBetween_ok] at h
  obtain ⟨-, hcount, htexts⟩ := h
  have hagain : countBetween 1 12 texts = .ok () :=
    countBetween_ok.mpr (by rw [sortedTexts_length htexts]; exact hcount)
  rw [sortedShortTexts, hagain, Py.ok_bind, QaReview.sortedTexts_again shortText_again htexts]

/-- The validated capabilities of a task. -/
theorem uniqueSorted_again {values : List Text} (hcount : 1 ≤ values.length ∧ values.length ≤ 12)
    (hkept : ∀ value ∈ values, identifierItem value = .ok value) :
    countBetween 1 12 (uniqueSorted values) = .ok () ∧ (uniqueSorted values).mapM identifierItem =
      .ok (uniqueSorted values) ∧
      uniqueSorted (uniqueSorted values) = uniqueSorted values := by
  have hperm : (uniqueSorted values).Perm values.dedup := List.perm_insertionSort _ _
  have hnodup : (uniqueSorted values).Nodup := hperm.nodup_iff.mpr (List.nodup_dedup values)
  have hsorted : (uniqueSorted values).Pairwise (· ≤ ·) := List.pairwise_insertionSort _ _
  refine ⟨countBetween_ok.mpr ⟨?_, ?_⟩, mapM_self fun value hvalue => ?_, ?_⟩
  · obtain ⟨value, hvalue⟩ := List.exists_mem_of_length_pos hcount.1
    exact List.length_pos_of_mem (hperm.mem_iff.mpr (List.mem_dedup.mpr hvalue))
  · rw [hperm.length_eq]
    exact Nat.le_trans (List.dedup_sublist values).length_le hcount.2
  · exact hkept value (List.mem_dedup.mp (hperm.mem_iff.mp hvalue))
  · have hdedup : (uniqueSorted values).dedup = uniqueSorted values := List.Nodup.dedup hnodup
    have hunfold : uniqueSorted (uniqueSorted values) =
      (uniqueSorted values).dedup.insertionSort (· ≤ ·) := rfl
    rw [hunfold, hdedup, hsorted.insertionSort_eq]

theorem taskFields_again {data task : Contracts.ProposedWorkerTask} (h : data.validate = .ok task) :
    task.validate = .ok task := by
  simp only [Contracts.ProposedWorkerTask.validate, Py.bind_eq_ok, countBetween_ok] at h
  obtain ⟨taskKey, hkey, -, hcapabilityCount, capabilities, hcapabilities, -, hdependencyCount,
    dependencies, hdependencies, _, hdistinct, output, houtput, heq⟩ := h
  cases heq
  obtain ⟨hcount, hkept, hsame⟩ :=
    @uniqueSorted_again capabilities (by rw [mapM_ok_length hcapabilities]; exact hcapabilityCount)
    (fun value hvalue => by
      obtain ⟨raw, -, hraw⟩ := mem_of_mapM hcapabilities value hvalue
      exact QaReview.identifierItem_again hraw)
  have hperm := List.perm_insertionSort (· ≤ ·) dependencies
  have hdependencyCount' : countBetween 0 15 (dependencies.insertionSort (· ≤ ·)) = .ok () :=
    countBetween_ok.mpr
      (by rw [hperm.length_eq, mapM_ok_length hdependencies]; exact hdependencyCount)
  have hdependencyKept : (dependencies.insertionSort (· ≤ ·)).mapM taskKeyItem =
      .ok (dependencies.insertionSort (· ≤ ·)) := by
    refine mapM_self fun value hvalue => ?_
    obtain ⟨raw, -, hraw⟩ := mem_of_mapM hdependencies value (hperm.mem_iff.mp hvalue)
    exact taskKeyItem_again hraw
  have hdistinct' : distinct (dependencies.insertionSort (· ≤ ·)) = .ok () := by
    rw [distinct_ok] at hdistinct ⊢
    exact hperm.nodup_iff.mpr hdistinct
  have hsorted : (dependencies.insertionSort (· ≤ ·)).Pairwise (· ≤ ·) :=
    List.pairwise_insertionSort _ _
  simp only [Contracts.ProposedWorkerTask.validate, taskKeyItem_again hkey, hcount, hkept,
    hdependencyCount', hdependencyKept, hdistinct', QaReview.identifierItem_again houtput,
      Py.ok_bind, hsame, hsorted.insertionSort_eq]
  rfl

theorem ProposedWorkerTask.again {data task : ProposedWorkerTask} (h : data.validate w = .ok task) :
    task.validate w = .ok task ∧ task.dependsOn.Nodup := by
  simp only [ProposedWorkerTask.validate, Py.bind_eq_ok] at h
  obtain ⟨fields, hfields, title, htitle, objective, hobjective, criteria, hcriteria, heq⟩ := h
  cases heq
  constructor
  · simp only [ProposedWorkerTask.validate, taskFields_again hfields, safeField_again htitle,
      safeField_again hobjective, sortedShortTexts_again hcriteria, Py.ok_bind]
    rfl
  · simp only [Contracts.ProposedWorkerTask.validate, Py.bind_eq_ok] at hfields
    obtain ⟨_, -, -, -, _, -, -, -, dependencies, -, _, hdistinct, _, -, hout⟩ := hfields
    cases hout
    rw [distinct_ok] at hdistinct
    exact (List.perm_insertionSort _ _).nodup_iff.mpr hdistinct

theorem validateFields_again {data fields : DevelopmentPlanProposal}
    (h : data.validateFields w = .ok fields) {stored : List ProposedWorkerTask}
    (hstored : stored.Perm fields.proposedTasks) :
    ({ fields with proposedTasks := stored } : DevelopmentPlanProposal).validateFields w = .ok
    { fields with proposedTasks := stored } := by
  simp only [DevelopmentPlanProposal.validateFields, Py.bind_eq_ok, countBetween_ok] at h
  obtain ⟨interpretation, hinterpretation, workstreams, hworkstreams, -, hcount, tasks, htasks,
    heq⟩ := h
  cases heq
  have hcount' : countBetween 1 MAX_PROPOSED_TASKS stored = .ok () :=
    countBetween_ok.mpr (by rw [hstored.length_eq, mapM_ok_length htasks]; exact hcount)
  have hkept : stored.mapM (ProposedWorkerTask.validate w) = .ok stored := by
    refine mapM_self fun task htask => ?_
    obtain ⟨raw, -, hraw⟩ := mem_of_mapM htasks task (hstored.mem_iff.mp htask)
    exact (ProposedWorkerTask.again hraw).1
  simp only [DevelopmentPlanProposal.validateFields, safeField_again hinterpretation,
    sortedShortTexts_again hworkstreams, hcount', hkept, Py.ok_bind]
  rfl

theorem dependencies_distinct {data fields : DevelopmentPlanProposal}
    (h : data.validateFields w = .ok fields) :
    (∀ task ∈ fields.proposedTasks, task.dependsOn.Nodup ∧ task.dependsOn.length ≤ 15) ∧
    fields.proposedTasks.length ≤ MAX_PROPOSED_TASKS := by
  simp only [DevelopmentPlanProposal.validateFields, Py.bind_eq_ok, countBetween_ok] at h
  obtain ⟨interpretation, -, workstreams, -, -, hcount, tasks, htasks, heq⟩ := h
  cases heq
  refine ⟨fun task htask => ?_, by rw [mapM_ok_length htasks]; exact hcount.2⟩
  obtain ⟨raw, -, hraw⟩ := mem_of_mapM htasks task htask
  obtain ⟨hagain, hnodup⟩ := ProposedWorkerTask.again hraw
  refine ⟨hnodup, ?_⟩
  simp only [ProposedWorkerTask.validate, Contracts.ProposedWorkerTask.validate, Py.bind_eq_ok,
    countBetween_ok] at hagain
  obtain ⟨_, ⟨_, -, -, -, _, -, -, hlength, -⟩, -⟩ := hagain
  exact hlength.2

theorem validateDependencyGraph_ok {fields result : DevelopmentPlanProposal} :
    fields.validateDependencyGraph = .ok (.some result) ↔
      ∃ stored, orderTasks fields.proposedTasks = .ok (.some stored) ∧
        result = { fields with proposedTasks := stored } := by
  rw [DevelopmentPlanProposal.validateDependencyGraph, Py.bind_eq_ok]
  constructor
  · rintro ⟨found, hfound, hresult⟩
    cases found with
    | none => cases hresult
    | some stored =>
      cases hresult
      exact ⟨stored, hfound, rfl⟩
  · rintro ⟨stored, hstored, rfl⟩
    exact ⟨.some stored, hstored, rfl⟩

/-- Where the keys differ, items are in the order of their keys. -/
theorem eq_of_map_eq {α β : Type} {f : α → β} {values other : List α}
    (hdistinct : (values.map f).Nodup) (hsubset : other ⊆ values) (h : values.map f = other.map f) :
    values = other := by
  have hlength : values.length = other.length := by
    have hlength := congrArg List.length h
    rw [List.length_map, List.length_map] at hlength
    exact hlength
  refine List.ext_getElem hlength fun i hvalues hother => ?_
  have hget : f values[i] = f other[i] := by
    have hget := List.getElem_of_eq h (by rw [List.length_map]; exact hvalues)
    rw [List.getElem_map, List.getElem_map] at hget
    exact hget
  exact List.inj_on_of_nodup_map hdistinct (List.getElem_mem hvalues)
    (hsubset (List.getElem_mem hother)) hget

/-- A stored proposal, with its tasks in the order of its graph, is ordered as it stands. -/
theorem orderTasks_again {tasks stored : List ProposedWorkerTask}
    (hdependencies : ∀ task ∈ tasks, task.dependsOn.Nodup)
    (h : orderTasks tasks = .ok (.some stored)) : stored.Perm tasks ∧ orderTasks stored = .ok
    (.some stored) := by
  have hdistinct := distinct_of_orderTasks h
  let stepOf : ProposedWorkerTask → WorkflowStepCreate :=
    fun task => plainStep task.taskKey task.dependsOn
  have hsame : ∀ tasks, SameGraph tasks (tasks.map stepOf) := by
    intro tasks
    rw [SameGraph, List.map_map]
    rfl
  cases (hsame tasks).agree hdistinct hdependencies with
  | refused message herror _ =>
    rw [h] at herror
    cases herror
  | accepted found hperm hfound hvalidate =>
    rw [h] at hfound
    cases hfound
    refine ⟨hperm, ?_⟩
    have hdistinct' : (stored.map (·.taskKey)).Nodup := (hperm.map _).nodup_iff.mpr hdistinct
    have hsteps : ((tasks.map stepOf).map (·.stepKey)).Nodup := (hsame tasks).keys ▸ hdistinct
    have hrelisted : Relisted (tasks.map stepOf) (stored.map stepOf) :=
      ⟨tasks.map stepOf, hperm.map _, List.forall₂_same.mpr fun step _ => ⟨rfl, List.Perm.refl _⟩⟩
    have hvalidate' := (validateGraph_relisted hsteps hrelisted _).mpr hvalidate
    cases (hsame stored).agree hdistinct' (fun task htask =>
        hdependencies task (hperm.subset htask)) with
    | refused message _ herror =>
      rw [hvalidate'] at herror
      cases herror
    | accepted again hperm' hagain hvalidate'' =>
      rw [hvalidate'] at hvalidate''
      have hkeys : stored.map (·.taskKey) = again.map (·.taskKey) :=
        Option.some.inj (Except.ok.inj hvalidate'')
      have heq : stored = again := eq_of_map_eq hdistinct' hperm'.subset hkeys
      rw [← heq] at hagain
      exact hagain

/-- **The two plan validators agree**: fields that are valid make a proposal if and only if their
tasks make a plan that is valid, the tasks of the proposal are in the order of the plan's steps,
and a proposal that is validated again is left as it is. What the validator of the graph returns
or refuses, the validation of the whole proposal returns or refuses. -/
theorem plan_validators_agree {data fields : DevelopmentPlanProposal}
    (hfields : data.validateFields w = .ok fields) {steps : List WorkflowStepCreate}
    (hsame : SameGraph fields.proposedTasks steps) :
    (∀ order, (∃ stored, fields.validateDependencyGraph = .ok (.some stored) ∧
      stored.proposedTasks.map (·.taskKey) = order) ↔
        graphBounds steps = .ok () ∧ validateGraph steps = .ok (.some order)) ∧
      ((¬∃ order, graphBounds steps = .ok () ∧ validateGraph steps = .ok (.some order)) →
        fields.validateDependencyGraph = .error .valueError ∧
          data.validate w = .error .valueError) ∧
      ∀ stored, fields.validateDependencyGraph = .ok (.some stored) →
        data.validate w = .ok (.some stored) ∧ stored.proposedTasks.Perm fields.proposedTasks ∧
          stored.validate w = .ok (.some stored) := by
  obtain ⟨hdependencies, hcount⟩ := dependencies_distinct hfields
  have hbounds : graphBounds steps = .ok () ↔ (steps.map (·.stepKey)).Nodup := by
    have hedges : (steps.map (·.dependsOn.length)).sum ≤ MAX_PLAN_EDGES := by
      have hsums : steps.map (·.dependsOn.length) =
          fields.proposedTasks.map (·.dependsOn.length) := by
        have hlengths := congrArg (List.map fun entry => entry.2.length) hsame
        rw [List.map_map, List.map_map] at hlengths
        exact hlengths.symm
      have hle := List.sum_le_card_nsmul (fields.proposedTasks.map (·.dependsOn.length)) 15 (by
        intro length hlength
        obtain ⟨task, htask, rfl⟩ := List.mem_map.mp hlength
        exact (hdependencies task htask).2)
      rw [List.length_map, smul_eq_mul] at hle
      rw [hsums, MAX_PLAN_EDGES]
      rw [MAX_PROPOSED_TASKS] at hcount
      omega
    simp only [graphBounds, raiseIf_eq_ok, Py.bind_eq_ok, decide_eq_false_iff_not,
      Nat.not_lt.mpr hedges, Bool.not_eq_false', decide_eq_true_eq, not_false_eq_true, and_true,
        exists_const]
  have hnodup : ∀ task ∈ fields.proposedTasks, task.dependsOn.Nodup :=
    fun task htask => (hdependencies task htask).1
  have horder := hsame.order_iff hnodup
  have hvalidated : data.validate w = fields.validateDependencyGraph := by
    rw [DevelopmentPlanProposal.validate, hfields, Py.ok_bind]
  refine ⟨fun order => ?_, fun hnone => ?_, fun stored hstored => ?_⟩
  · rw [hbounds, ← horder]
    constructor
    · rintro ⟨stored, hstored, rfl⟩
      obtain ⟨tasks, htasks, rfl⟩ := validateDependencyGraph_ok.mp hstored
      exact ⟨tasks, htasks, rfl⟩
    · rintro ⟨tasks, htasks, rfl⟩
      exact ⟨_, validateDependencyGraph_ok.mpr ⟨tasks, htasks, rfl⟩, rfl⟩
  · have herror : orderTasks fields.proposedTasks = .error .valueError := by
      by_cases hdistinct : (fields.proposedTasks.map (·.taskKey)).Nodup
      · cases hsame.agree hdistinct hnodup with
        | refused message herror _ => exact herror
        | accepted found _ _ hvalidate =>
          exact absurd ⟨_, hbounds.mpr (hsame.keys ▸ hdistinct), hvalidate⟩ hnone
      · have hlength :
            decide ((byKeyOf fields.proposedTasks).length ≠ fields.proposedTasks.length) =
            true := by
          rw [decide_eq_true_iff, ne_eq, byKeyOf_length]
          exact hdistinct
        rw [orderTasks]
        show (raiseIf _ _ >>= _) = _
        rw [hlength]
        rfl
    have hrefused : fields.validateDependencyGraph = .error .valueError := by
      rw [DevelopmentPlanProposal.validateDependencyGraph, herror]
      rfl
    exact ⟨hrefused, hvalidated.trans hrefused⟩
  · refine ⟨hvalidated.trans hstored, ?_⟩
    obtain ⟨tasks, htasks, rfl⟩ := validateDependencyGraph_ok.mp hstored
    obtain ⟨hperm, hagain⟩ := orderTasks_again hnodup htasks
    refine ⟨hperm, ?_⟩
    rw [DevelopmentPlanProposal.validate, validateFields_again hfields hperm, Py.ok_bind]
    exact validateDependencyGraph_ok.mpr ⟨tasks, hagain, rfl⟩

def shortTask (taskKey : Text) (dependsOn : List Text) : ProposedWorkerTask where
  taskKey := taskKey
  requiredCapabilities := [['c']]
  dependsOn := dependsOn
  expectedOutput := ['o']
  title := ['t']
  objective := ['t']
  acceptanceCriteria := [['t']]
  riskLevel := .low

/-- Two tasks that wait for a third. -/
def forkedProposal : DevelopmentPlanProposal where
  objectiveInterpretation := ['t']
  architectureWorkstreams := [['t']]
  proposedTasks := [shortTask ['b'] [['c']], shortTask ['c'] [], shortTask ['a'] [['c']]]
  qaReview := .notNeeded
  securityReview := .notNeeded
  manualReview := .notNeeded

theorem forked_validators_agree :
    forkedProposal.validateFields asciiWord = .ok forkedProposal ∧
      (∀ order, (∃ stored, forkedProposal.validateDependencyGraph = .ok (.some stored) ∧
        stored.proposedTasks.map (·.taskKey) = order) ↔
        graphBounds forkedPlan = .ok () ∧ validateGraph forkedPlan = .ok (.some order)) ∧
      ((¬∃ order, graphBounds forkedPlan = .ok () ∧ validateGraph forkedPlan = .ok (.some order)) →
        forkedProposal.validateDependencyGraph = .error .valueError ∧
          forkedProposal.validate asciiWord = .error .valueError) ∧
      ∀ stored, forkedProposal.validateDependencyGraph = .ok (.some stored) →
        forkedProposal.validate asciiWord = .ok (.some stored) ∧
          stored.proposedTasks.Perm forkedProposal.proposedTasks ∧ stored.validate asciiWord = .ok
            (.some stored) := by
  have hfields : forkedProposal.validateFields asciiWord = .ok forkedProposal := by decide +kernel
  exact ⟨hfields, plan_validators_agree hfields rfl⟩

end Novalton.PlanProposals
