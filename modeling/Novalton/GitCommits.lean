/-
One git commit action and the requests that approve and apply it (the approve route,
`approve_and_apply` of `modules/git_changesets/service.py`), with any other commits that
reach its branch.

A request reads the action before it locks it, and its session keeps the row as it first
loaded it: the locked read waits for the lock and changes nothing in memory. The lock goes
with the next commit, which is the audit commit of the policy evaluation. An `UPDATE`
writes the columns whose values are not the loaded ones.
-/
import Novalton.GitApply
import Novalton.RowLock
import Novalton.Status
import Novalton.Transition

namespace Novalton.GitCommits

inductive GitCommitStatus where
  | pendingApproval | applying | applied | failed | rejected
deriving DecidableEq, Repr

/-- The columns of a `GitCommitAction` that change. -/
structure GitCommitAction where
  status : GitCommitStatus
  resultingCommitSha : Option Text
  failureCode : Option String
deriving DecidableEq, Repr

/-- Where a request is, with the action as its session has it. -/
inductive Pc where
  | idle
  | approve (action : GitCommitAction)
  | getForApproval (action : GitCommitAction)
  | eligible (action : GitCommitAction)
  | evaluate (action : GitCommitAction)
  | satisfied (action : GitCommitAction)
  | setApplying (action : GitCommitAction)
  | apply (action : GitCommitAction)
  | setBranch (action : GitCommitAction) (entries : Replacements)
  | writeIndex (action : GitCommitAction) (entries : Replacements)
  | setFailed (action : GitCommitAction) (code : String)
  | setApplied (action : GitCommitAction)
deriving DecidableEq

/-- `head` is what the action's branch points to; `moved` says that the action has moved it. -/
structure State where
  action : Row GitCommitAction
  head : Text
  moved : Bool
  requests : ℕ → Pc

/-- Request `i` goes on at `pc`. -/
def State.goto (s : State) (i : ℕ) (pc : Pc) : State :=
  { s with requests := Function.update s.requests i pc }

section
variable (s : State) (i : ℕ) (pc : Pc)

@[simp] theorem goto_action : (s.goto i pc).action = s.action := rfl

@[simp] theorem goto_head : (s.goto i pc).head = s.head := rfl

@[simp] theorem goto_moved : (s.goto i pc).moved = s.moved := rfl

@[simp] theorem goto_self : (s.goto i pc).requests i = pc := Function.update_self ..

@[simp] theorem goto_goto (pc' : Pc) : (s.goto i pc).goto i pc' = s.goto i pc' := by
  simp [State.goto]

theorem goto_ne {j : ℕ} (h : j ≠ i) : (s.goto i pc).requests j = s.requests j :=
  Function.update_of_ne h ..

end

/-- How the code a step calls answers: `refuse` is a check that fails, `fail` an exception
of another kind, a cancellation or a crash. The calls of the adapter read a repository. -/
inductive Answer where
  | begin
  | proceed
  | refuse
  | evaluated (effect : PolicyEffect) (audited : Bool)
  | reads (repo : Repository)
  | fail

/-- A step of a request, or a commit of somebody else's. -/
inductive Label where
  | request (i : ℕ) (answer : Answer)
  | commit (sha : Text)

/-! ## What a request writes -/

/-- The write of one step: the lock, the end of a transaction, an `UPDATE` of the action
with its commit, the move of the branch. -/
inductive Write where
  | none
  | commit
  | rollback
  | lock
  | update (action : GitCommitAction)
  | moveBranch
deriving DecidableEq

/-- The row after `SET` of the columns in which `new` is not `loaded`. -/
def GitCommitAction.set (row loaded new : GitCommitAction) : GitCommitAction where
  status := if new.status = loaded.status then row.status else new.status
  resultingCommitSha := if new.resultingCommitSha = loaded.resultingCommitSha then
    row.resultingCommitSha else new.resultingCommitSha
  failureCode := if new.failureCode = loaded.failureCode then row.failureCode else new.failureCode

/-- `action.status = "APPLYING"`. -/
def GitCommitAction.applying (action : GitCommitAction) : GitCommitAction :=
  { action with status := .applying }

/-- The failure of an attempt. -/
def GitCommitAction.failed (action : GitCommitAction) (code : String) : GitCommitAction :=
  { action with status := .failed, failureCode := .some code }

/-- The success of an attempt. -/
def GitCommitAction.applied (action : GitCommitAction) (sha : Text) : GitCommitAction :=
  { action with status := .applied, resultingCommitSha := .some sha }

section
variable (lib : Library) (ids : ObjectIds) (data : ApplyArguments)

/-- The write of request `i`, if the row is free. -/
def Write.run (s : State) (i : ℕ) : Write → Option State
  | .none => .some s
  | .commit => .some { s with action := s.action.commit i }
  | .rollback => .some { s with action := s.action.rollback i }
  | .lock => (s.action.lock i).map fun row => { s with action := row }
  | .update action => (s.action.put i action).map fun row => { s with action := row }
  | .moveBranch => .some { s with head := data.expectedCommit, moved := true }

/-- A repository the adapter may find: where HEAD is on the action's branch, it is at the
branch's head. -/
def State.shows (s : State) (repo : Repository) : Bool :=
  match openRepo lib repo with
  | .ok (branch, head) => branch != data.branchRef || head == s.head
  | .error _ => true

/-- Where an attempt goes on a failure of the adapter. -/
def onError (action : GitCommitAction) : PyError → Write × Pc
  | .tool code => (.none, .setFailed action code)
  | _ => (.rollback, .idle)

/-- The step a request at `pc` takes on an answer. A raise rolls its transaction back. -/
def next (s : State) (pc : Pc) (answer : Answer) : Option (Write × Pc) :=
  match pc, answer with
  | .idle, .begin => .some (.none, .approve s.action.committed)
  | .idle, _ => .none
  | _, .fail => leave
  | .approve action, .proceed => .some (.none, .getForApproval action)
  | .approve _, .refuse => leave
  | .getForApproval action, .proceed => .some (.lock, .eligible action)
  -- the status of the row in memory, then the workflow, the QA step and the mutations
  | .eligible action, .proceed =>
    if action.status = .applied ∨ action.status = .rejected then leave
      else .some (.none, .evaluate action)
  | .eligible _, .refuse => leave
  -- the audit commit lets the lock go
  | .evaluate action, .evaluated effect audited =>
    if effect ≠ .allow ∧ audited = false then .none
    else if effect = .requireConfirmation then .some (.commit, .satisfied action)
    else leave
  | .satisfied action, .proceed => .some (.none, .setApplying action)
  | .satisfied _, .refuse => leave
  -- no column changes where the loaded status is APPLYING
  | .setApplying action, .proceed =>
    if action.status = .applying then .some (.commit, .apply action)
    else .some (.update (s.action.committed.set action action.applying), .apply action.applying)
  | .apply action, .reads repo =>
    if s.shows lib data repo = false then .none
    else
      match applyChecked lib ids repo data with
      | .ok (.recovered entries) => .some (.none, .writeIndex action entries)
      | .ok (.commit _ _ entries) => .some (.none, .setBranch action entries)
      | .error e => .some (onError action e)
  -- `set_if_equals`
  | .setBranch action entries, .proceed =>
    if s.head = data.expectedHead then .some (.moveBranch, .writeIndex action entries)
    else .some (onError action (.tool "git_stale_head"))
  | .writeIndex action entries, .reads repo =>
    match indexEntries lib repo.worktree entries with
    | .ok _ => .some (.none, .setApplied action)
    | .error e => .some (onError action e)
  | .setFailed action code, .proceed =>
    .some (.update (s.action.committed.set action (action.failed code)), .idle)
  | .setApplied action, .proceed =>
    .some (.update (s.action.committed.set action (action.applied data.expectedCommit)), .idle)
  | _, _ => .none
where
  leave : Option (Write × Pc) := .some (.rollback, .idle)

/-- The step of request `i`. -/
def requestStep (s : State) (i : ℕ) (answer : Answer) : Option State :=
  match next lib ids data s (s.requests i) answer with
  | .some (write, pc) => (write.run data s i).map (·.goto i pc)
  | .none => .none

def step (s : State) : Label → Option State
  | .request i answer => requestStep lib ids data s i answer
  | .commit sha => .some { s with head := sha }

/-- The requests on a prepared action. -/
def system : System State Label where
  Init s := s.action = .idle ⟨.pendingApproval, .none, .none⟩ ∧ s.moved = false ∧
    ∀ i, s.requests i = .idle
  step := step lib ids data

/-! ## What a step can do -/

/-- The steps of a request, one constructor for each way `next` can go. -/
inductive Next (s : State) : Pc → Answer → Write → Pc → Prop where
  | begin : Next s .idle .begin .none (.approve s.action.committed)
  | leave (pc : Pc) (answer : Answer) (h : pc ≠ .idle) : Next s pc answer .rollback .idle
  | approve (action : GitCommitAction) :
      Next s (.approve action) .proceed .none (.getForApproval action)
  | getForApproval (action : GitCommitAction) :
      Next s (.getForApproval action) .proceed .lock (.eligible action)
  | eligible (action : GitCommitAction) (h : action.status ≠ .applied ∧ action.status ≠ .rejected) :
    Next s (.eligible action) .proceed .none (.evaluate action)
  | evaluate (action : GitCommitAction) (audited : Bool) :
    Next s (.evaluate action) (.evaluated .requireConfirmation audited) .commit (.satisfied action)
  | satisfied (action : GitCommitAction) :
      Next s (.satisfied action) .proceed .none (.setApplying action)
  | stillApplying (action : GitCommitAction) (h : action.status = .applying) :
    Next s (.setApplying action) .proceed .commit (.apply action)
  | setApplying (action : GitCommitAction) (h : action.status ≠ .applying) :
    Next s (.setApplying action) .proceed (.update (s.action.committed.set action action.applying))
      (.apply action.applying)
  | recovered (action : GitCommitAction) (repo : Repository) (entries : Replacements)
    (h : applyChecked lib ids repo data = .ok (.recovered entries))
      (hshown : s.shows lib data repo = true) :
    Next s (.apply action) (.reads repo) .none (.writeIndex action entries)
  | committed (action : GitCommitAction) (repo : Repository) (commit : Commit) (store : ObjectStore)
      (entries : Replacements)
    (h : applyChecked lib ids repo data = .ok (.commit commit store entries))
      (hshown : s.shows lib data repo = true) :
    Next s (.apply action) (.reads repo) .none (.setBranch action entries)
  | checkFailed (action : GitCommitAction) (repo : Repository) (code : String)
    (h : applyChecked lib ids repo data = .error (.tool code)) :
    Next s (.apply action) (.reads repo) .none (.setFailed action code)
  | setBranch (action : GitCommitAction) (entries : Replacements) (h : s.head = data.expectedHead) :
    Next s (.setBranch action entries) .proceed .moveBranch (.writeIndex action entries)
  | branchMoved (action : GitCommitAction) (entries : Replacements)
      (h : s.head ≠ data.expectedHead) :
    Next s (.setBranch action entries) .proceed .none (.setFailed action "git_stale_head")
  | writeIndex (action : GitCommitAction) (entries : Replacements) (repo : Repository) :
    Next s (.writeIndex action entries) (.reads repo) .none (.setApplied action)
  | indexFailed (action : GitCommitAction) (entries : Replacements) (repo : Repository)
      (code : String)
    (h : indexEntries lib repo.worktree entries = .error (.tool code)) :
    Next s (.writeIndex action entries) (.reads repo) .none (.setFailed action code)
  | setFailed (action : GitCommitAction) (code : String) :
    Next s (.setFailed action code) .proceed
      (.update (s.action.committed.set action (action.failed code))) .idle
  | setApplied (action : GitCommitAction) :
    Next s (.setApplied action) .proceed
      (.update (s.action.committed.set action (action.applied data.expectedCommit))) .idle

variable {lib ids data} {s t : State} {pc pc' : Pc} {answer : Answer} {write : Write}

theorem onError_cases {action : GitCommitAction} {e : PyError}
    (h : onError action e = (write, pc')) :
    (write = .rollback ∧ pc' = .idle) ∨ ∃ code, e = .tool code ∧ write = .none ∧
    pc' = .setFailed action code := by
  cases e with
  | tool code =>
    cases h
    exact .inr ⟨code, rfl, rfl, rfl⟩
  | _ =>
    cases h
    exact .inl ⟨rfl, rfl⟩

theorem next_cases (h : next lib ids data s pc answer = .some (write, pc')) :
    Next lib ids data s pc answer write pc' := by
  cases pc with
  | idle =>
    cases answer with
    | begin => cases h; exact .begin
    | _ => cases h
  | approve action =>
    cases answer with
    | proceed => cases h; exact .approve action
    | refuse | fail => cases h; exact .leave _ _ (by simp)
    | _ => cases h
  | getForApproval action =>
    cases answer with
    | proceed => cases h; exact .getForApproval action
    | fail => cases h; exact .leave _ _ (by simp)
    | _ => cases h
  | eligible action =>
    cases answer with
    | proceed =>
      simp only [next] at h
      split at h
      · cases h
        exact .leave _ _ (by simp)
      next hstatus =>
        cases h
        exact .eligible action (not_or.mp hstatus)
    | refuse | fail => cases h; exact .leave _ _ (by simp)
    | _ => cases h
  | evaluate action =>
    cases answer with
    | evaluated effect audited =>
      simp only [next] at h
      split at h
      · cases h
      · split at h
        next heffect =>
          cases h
          rw [heffect]
          exact .evaluate action audited
        next =>
          cases h
          exact .leave _ _ (by simp)
    | fail => cases h; exact .leave _ _ (by simp)
    | _ => cases h
  | satisfied action =>
    cases answer with
    | proceed => cases h; exact .satisfied action
    | refuse | fail => cases h; exact .leave _ _ (by simp)
    | _ => cases h
  | setApplying action =>
    cases answer with
    | proceed =>
      simp only [next] at h
      split at h
      next hstatus =>
        cases h
        exact .stillApplying action hstatus
      next hstatus =>
        cases h
        exact .setApplying action hstatus
    | fail => cases h; exact .leave _ _ (by simp)
    | _ => cases h
  | apply action =>
    cases answer with
    | reads repo =>
      simp only [next] at h
      split at h
      · cases h
      next hshown =>
        have hshown' : s.shows lib data repo = true := by simpa using hshown
        split at h
        next entries hcheck =>
          cases h
          exact .recovered action repo entries hcheck hshown'
        next commit store entries hcheck =>
          cases h
          exact .committed action repo commit store entries hcheck hshown'
        next e hcheck =>
          obtain ⟨rfl, rfl⟩ | ⟨code, rfl, rfl, rfl⟩ := onError_cases (Option.some.inj h)
          · exact .leave _ _ (by simp)
          · exact .checkFailed action repo code hcheck
    | fail => cases h; exact .leave _ _ (by simp)
    | _ => cases h
  | setBranch action entries =>
    cases answer with
    | proceed =>
      simp only [next] at h
      split at h
      next hhead =>
        cases h
        exact .setBranch action entries hhead
      next hhead =>
        cases h
        exact .branchMoved action entries hhead
    | fail => cases h; exact .leave _ _ (by simp)
    | _ => cases h
  | writeIndex action entries =>
    cases answer with
    | reads repo =>
      simp only [next] at h
      split at h
      · cases h
        exact .writeIndex action entries repo
      next e hindex =>
        obtain ⟨rfl, rfl⟩ | ⟨code, rfl, rfl, rfl⟩ := onError_cases (Option.some.inj h)
        · exact .leave _ _ (by simp)
        · exact .indexFailed action entries repo code hindex
    | fail => cases h; exact .leave _ _ (by simp)
    | _ => cases h
  | setFailed action code =>
    cases answer with
    | proceed => cases h; exact .setFailed action code
    | fail => cases h; exact .leave _ _ (by simp)
    | _ => cases h
  | setApplied action =>
    cases answer with
    | proceed => cases h; exact .setApplied action
    | fail => cases h; exact .leave _ _ (by simp)
    | _ => cases h

/-- A step of a request is one of `next` and its write. -/
theorem requestStep_cases {i : ℕ} (h : requestStep lib ids data s i answer = .some t) :
    ∃ write pc u, Next lib ids data s (s.requests i) answer write pc ∧
      write.run data s i = .some u ∧
      t = u.goto i pc := by
  unfold requestStep at h
  split at h
  next write pc hnext =>
    obtain ⟨u, hrun, rfl⟩ := Option.map_eq_some_iff.mp h
    exact ⟨write, pc, u, next_cases hnext, hrun, rfl⟩
  next => cases h

end

end Novalton.GitCommits
