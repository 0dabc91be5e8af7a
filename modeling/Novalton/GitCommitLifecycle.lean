/-
What holds of a git commit action in every run of its requests: that APPLIED stays, that
it stands with the expected commit and no failure code, and that a FAILED action did not
move the branch.

Each of the three is lost to a race or a retry: a request that has read the action before
it was APPLIED goes on to write APPLYING; an attempt fails though the action's commit is on
the branch; and no attempt clears the failure code of an earlier one. `Sound` is what the
steps are to meet for none of it to happen.
-/
import Novalton.GitCommits

namespace Novalton.GitCommits

/-- The action has moved the branch, or is recorded to have. -/
def State.Done (s : State) : Prop := s.moved = true ∨ s.action.committed.status = .applied

/-- No request is about to record a failure. -/
def State.NoneFailing (s : State) : Prop := ∀ i action code, s.requests i ≠ .setFailed action code

/-- A request that APPLIED may overtake: it has loaded APPLYING, or written it, and is not
about to record a failure. -/
def Pc.Follows : Pc → Prop
  | .idle | .apply _ | .setBranch _ _ | .writeIndex _ _ | .setApplied _ => True
  | .approve action | .getForApproval action | .eligible action | .evaluate action
  | .satisfied action
  | .setApplying action => action.status = .applying
  | .setFailed _ _ => False

/-- No request is in progress. -/
def State.Quiescent (s : State) : Prop := ∀ i, s.requests i = .idle

section
variable (lib : Library) (ids : ObjectIds) (data : ApplyArguments)

/-- The steps of a request that do not lose the properties: where the action is done, no
part of `apply` fails; the branch is moved where no failure is recorded or about to be;
and APPLIED is recorded where no failure has been, and overtakes no request that has
loaded the action before it was APPLYING. -/
def Pc.Sound (s : State) : Pc → Answer → Prop
  | .apply _, .reads repo => s.Done → ∀ code, applyChecked lib ids repo data ≠ .error (.tool code)
  | .setBranch _ _, .proceed =>
    (s.Done → s.head = data.expectedHead) ∧
      (s.head = data.expectedHead → s.action.committed.status ≠ .failed ∧ s.NoneFailing)
  | .writeIndex _ entries, .reads repo => s.Done → ∀ code, indexEntries lib repo.worktree entries ≠
      .error (.tool code)
  | .setApplied _, .proceed => s.action.committed.failureCode = .none ∧ ∀ i, (s.requests i).Follows
  | _, _ => True

/-- Other commits may land anywhere. -/
def Sound (s : State) : Label → Prop
  | .request i answer => (s.requests i).Sound lib ids data s answer
  | .commit _ => True

/-- What a request knows of the action it has loaded: APPLIED stands with the expected
commit, and a request that goes on has not loaded it. -/
def Pc.Holds : Pc → Prop
  | .idle => True
  | .approve action | .getForApproval action | .eligible action =>
    action.status = .applied ↔ action.resultingCommitSha = .some data.expectedCommit
  | .evaluate action | .satisfied action | .setApplying action =>
    action.resultingCommitSha ≠ .some data.expectedCommit
  | .apply action | .setBranch action _ | .writeIndex action _ | .setFailed action _
  | .setApplied action =>
    action.status = .applying ∧ action.resultingCommitSha ≠ .some data.expectedCommit

/-- What a request may be at that has loaded the action as APPLIED, or has been overtaken
by it. -/
def Pc.Behind : Pc → Prop
  | .approve action | .getForApproval action | .eligible action => action.status = .applying ∨
    action.status = .applied
  | .evaluate action | .satisfied action | .setApplying action => action.status = .applying
  | _ => True

theorem Pc.Follows.behind {pc : Pc} (h : pc.Follows) : pc.Behind := by
  cases pc with
  | approve | getForApproval | eligible => exact .inl h
  | evaluate | satisfied | setApplying => exact h
  | _ => trivial

/-- The invariant. -/
structure Lifecycle (s : State) : Prop where
  applied_iff : s.action.committed.status = .applied ↔
    s.action.committed.resultingCommitSha = .some data.expectedCommit
  failure : s.action.committed.status = .applied → s.action.committed.failureCode = .none
  failed : s.action.committed.status = .failed → s.moved = false
  memory : ∀ i, (s.requests i).Holds data
  failing : ∀ i action code, s.requests i = .setFailed action code → ¬ s.Done
  behind : s.action.committed.status = .applied → ∀ i, (s.requests i).Behind

/-- No session holds a write it has not committed: every `UPDATE` is the last statement of
its transaction. -/
def Unwritten (s : State) : Prop := ∀ i v, s.action.own ≠ .some (i, .some v)

variable {lib ids data} {s t u : State} {i : ℕ} {pc : Pc} {answer : Answer} {write : Write}

/-! ## Writes -/

section
variable {row loaded : GitCommitAction}

@[simp] theorem set_applying (h : loaded.status ≠ .applying) :
    row.set loaded loaded.applying = row.applying := by
  simp [GitCommitAction.set, GitCommitAction.applying, h.symm]

theorem set_failed_status {code : String} (h : loaded.status = .applying) :
    (row.set loaded (loaded.failed code)).status = .failed := by
  simp [GitCommitAction.set, GitCommitAction.failed, h]

@[simp] theorem set_failed_resulting {code : String} :
    (row.set loaded (loaded.failed code)).resultingCommitSha = row.resultingCommitSha := by
  simp [GitCommitAction.set, GitCommitAction.failed]

theorem set_applied {sha : Text} (hstatus : loaded.status = .applying)
    (hsha : loaded.resultingCommitSha ≠ .some sha) :
    row.set loaded (loaded.applied sha) = row.applied sha := by
  have hsha' : ¬ .some sha = loaded.resultingCommitSha := fun h => hsha h.symm
  simp [GitCommitAction.set, GitCommitAction.applied, hstatus, hsha']

end

theorem run_requests (h : write.run data s i = .some u) : u.requests = s.requests := by
  cases write <;> simp only [Write.run, Option.map_eq_some_iff, Option.some.injEq] at h
  case none | commit | rollback | moveBranch => rw [← h]
  case lock | update =>
    obtain ⟨row, -, rfl⟩ := h
    rfl

/-- A step writes the row by an update only. -/
theorem run_committed (hs : Unwritten s) (h : write.run data s i = .some u)
    (hwrite : ∀ action, write ≠ .update action) :
    u.action.committed = s.action.committed := by
  cases write with
  | none | moveBranch =>
    cases h
    rfl
  | commit =>
    cases h
    exact Row.commit_committed (hs i)
  | rollback =>
    cases h
    exact Row.rollback_committed
  | lock =>
    obtain ⟨row, hrow, rfl⟩ := Option.map_eq_some_iff.mp h
    exact Row.lock_committed hrow
  | update action => exact absurd rfl (hwrite action)

theorem run_update {action : GitCommitAction} (h : Write.run data s i (.update action) = .some u) :
    u = { s with action := .idle action } := by
  obtain ⟨row, hrow, rfl⟩ := Option.map_eq_some_iff.mp h
  rw [(Row.put_eq hrow).1]
  rfl

/-- A step moves the branch by `set_if_equals` only. -/
theorem run_moved (h : write.run data s i = .some u) (hwrite : write ≠ .moveBranch) :
    u.moved = s.moved := by
  cases write with
  | none | commit | rollback =>
    cases h
    rfl
  | lock | update =>
    obtain ⟨row, -, rfl⟩ := Option.map_eq_some_iff.mp h
    rfl
  | moveBranch => exact absurd rfl hwrite

theorem run_unwritten (hs : Unwritten s) (h : write.run data s i = .some u) : Unwritten u := by
  intro j v hown
  cases write with
  | none | moveBranch =>
    cases h
    exact hs j v hown
  | commit =>
    cases h
    exact hs j v (Row.own_of_commit hown)
  | rollback =>
    cases h
    exact hs j v (Row.own_of_rollback hown)
  | lock =>
    obtain ⟨row, hrow, rfl⟩ := Option.map_eq_some_iff.mp h
    exact hs j v (Row.written_of_lock hrow hown)
  | update action =>
    rw [run_update h] at hown
    cases hown

theorem step_unwritten (hs : Unwritten s) {label : Label}
    (h : (system lib ids data).step s label = .some t) : Unwritten t := by
  cases label with
  | request i answer =>
    obtain ⟨write, pc, u, -, hrun, rfl⟩ := requestStep_cases h
    have hu := run_unwritten hs hrun
    exact hu
  | commit sha =>
    cases h
    exact hs

/-! ## Steps -/

/-- A request goes on at `pc` in `u`: what the row and the branch have come to is to hold,
and success overtakes no request that is about to undo it. -/
theorem Lifecycle.goto (hs : Lifecycle data s)
    (happlied : u.action.committed.status = .applied ↔
      u.action.committed.resultingCommitSha = .some data.expectedCommit)
    (hfailure : u.action.committed.status = .applied → u.action.committed.failureCode = .none)
    (hfailed : u.action.committed.status = .failed → u.moved = false)
    (hrequests : u.requests = s.requests) (hpc : pc.Holds data)
    (hfailing : ∀ action code, pc = .setFailed action code → ¬ u.Done)
    (hbehind : u.action.committed.status = .applied → pc.Behind)
    (hdone : (u.Done → s.Done) ∨ s.NoneFailing)
    (hfollow : (u.action.committed.status = .applied → s.action.committed.status = .applied) ∨ ∀ j,
    (s.requests j).Follows) :
    Lifecycle data (u.goto i pc) := by
  refine ⟨happlied, hfailure, hfailed, fun j => ?_, fun j action code hj => ?_, fun hu j => ?_⟩
  · by_cases hji : j = i
    · rw [hji, goto_self]
      exact hpc
    · rw [goto_ne _ _ _ hji, hrequests]
      exact hs.memory j
  · change ¬ u.Done
    by_cases hji : j = i
    · rw [hji, goto_self] at hj
      exact hfailing action code hj
    · rw [goto_ne _ _ _ hji, hrequests] at hj
      obtain hdone | hnone := hdone
      · exact fun hu => hs.failing j action code hj (hdone hu)
      · exact absurd hj (hnone j action code)
  · by_cases hji : j = i
    · rw [hji, goto_self]
      exact hbehind hu
    · rw [goto_ne _ _ _ hji, hrequests]
      obtain hsame | hfollow := hfollow
      · exact hs.behind (hsame hu) j
      · exact (hfollow j).behind

/-- A step that leaves the action and the branch as they are. -/
theorem Lifecycle.stay (hs : Lifecycle data s) (haction : u.action.committed = s.action.committed)
    (hmoved : u.moved = s.moved) (hrequests : u.requests = s.requests) (hpc : pc.Holds data)
    (hfailing : ∀ action code, pc = .setFailed action code → ¬ s.Done)
    (hbehind : s.action.committed.status = .applied → pc.Behind) : Lifecycle data
    (u.goto i pc) := by
  have hdone : u.Done ↔ s.Done := by rw [State.Done, State.Done, haction, hmoved]
  refine hs.goto ?_ ?_ ?_ hrequests hpc (fun action code h => ?_) ?_ (.inl hdone.mp) (.inl ?_)
  · rw [haction]
    exact hs.applied_iff
  · rw [haction]
    exact hs.failure
  · rw [haction, hmoved]
    exact hs.failed
  · rw [hdone]
    exact hfailing action code h
  · rw [haction]
    exact hbehind
  · rw [haction]
    exact id

/-- No step is about to record what a request with nothing pending has not. -/
theorem Pc.Follows.not_failing (h : ∀ i, (s.requests i).Follows) : s.NoneFailing := by
  intro i action code hi
  have hfollows := h i
  rw [hi] at hfollows
  exact hfollows

/-- **A sound step of a request keeps the invariant.** -/
theorem Lifecycle.next (hs : Lifecycle data s) (hu : Unwritten s)
    (hsound : Sound lib ids data s (.request i answer))
    (hnext : Next lib ids data s (s.requests i) answer write pc)
    (hrun : write.run data s i = .some u) :
    Lifecycle data (u.goto i pc) := by
  have hpc := hs.memory i
  have hrequests := run_requests hrun
  have hbehind : s.action.committed.status = .applied → (s.requests i).Behind := fun h => hs.behind h i
  change (s.requests i).Sound lib ids data s answer at hsound
  generalize hat : s.requests i = pc₀ at hnext hsound hpc hbehind
  cases hnext with
  | begin => exact hs.stay (run_committed hu hrun (by simp)) (run_moved hrun (by simp)) hrequests hs.applied_iff (by simp) fun h => .inr h
  | leave pc₀ answer h =>
    exact hs.stay (run_committed hu hrun (by simp)) (run_moved hrun (by simp)) hrequests trivial
      (by simp) fun _ => trivial
  | approve action | getForApproval action | evaluate action | satisfied action =>
    exact hs.stay (run_committed hu hrun (by simp)) (run_moved hrun (by simp)) hrequests hpc
      (by simp) hbehind
  | eligible action h =>
    exact hs.stay (run_committed hu hrun (by simp)) (run_moved hrun (by simp)) hrequests
      (fun hsha => h.1 (hpc.mpr hsha)) (by simp)
      fun happlied => (hbehind happlied).resolve_right h.1
  | stillApplying action h =>
    exact hs.stay (run_committed hu hrun (by simp)) (run_moved hrun (by simp)) hrequests ⟨h, hpc⟩
      (by simp) fun _ => trivial
  | setApplying action h =>
    -- a request that would write APPLYING over APPLIED has been overtaken by it
    have hnot : s.action.committed.status ≠ .applied := fun happlied => h (hbehind happlied)
    rw [set_applying h] at hrun
    rw [run_update hrun]
    refine hs.goto (u := { s with action := .idle s.action.committed.applying }) ?_ nofun
      nofun rfl ⟨rfl, hpc⟩ nofun nofun
      (.inl ?_) (.inl nofun)
    · exact ⟨nofun, fun hsha => absurd (hs.applied_iff.mpr hsha) hnot⟩
    · intro hdone
      exact .inl (hdone.resolve_right nofun)
  | recovered action repo entries h hshown | committed action repo commit store entries h hshown =>
    exact hs.stay (run_committed hu hrun (by simp)) (run_moved hrun (by simp)) hrequests hpc
      (by simp) fun _ => trivial
  | checkFailed action repo code h =>
    exact hs.stay (run_committed hu hrun (by simp)) (run_moved hrun (by simp)) hrequests hpc
      (fun _ _ _ hdone => hsound hdone code h)
      fun _ => trivial
  | setBranch action entries h =>
    obtain ⟨hnot, hnone⟩ := hsound.2 h
    cases hrun
    exact hs.goto (u := { s with head := data.expectedCommit, moved := true }) hs.applied_iff
      hs.failure
      (fun hfailed => absurd hfailed hnot) rfl hpc (by simp) (fun _ => trivial) (.inr hnone)
        (.inl id)
  | branchMoved action entries h =>
    exact hs.stay (run_committed hu hrun (by simp)) (run_moved hrun (by simp)) hrequests hpc
      (fun _ _ _ hdone => h (hsound.1 hdone))
      fun _ => trivial
  | writeIndex action entries repo =>
    exact hs.stay (run_committed hu hrun (by simp)) (run_moved hrun (by simp)) hrequests hpc
      (by simp) fun _ => trivial
  | indexFailed action entries repo code h =>
    exact hs.stay (run_committed hu hrun (by simp)) (run_moved hrun (by simp)) hrequests hpc
      (fun _ _ _ hdone => hsound hdone code h)
      fun _ => trivial
  | setFailed action code =>
    have hnot : ¬ s.Done := hs.failing i action code hat
    have hstatus : (s.action.committed.set action (action.failed code)).status = .failed :=
      set_failed_status hpc.1
    have hsha : (s.action.committed.set action (action.failed code)).resultingCommitSha = _ :=
      set_failed_resulting
    rw [run_update hrun]
    generalize s.action.committed.set action (action.failed code) = row at hstatus hsha ⊢
    have hfresh : row.status ≠ .applied := by
      rw [hstatus]
      nofun
    refine hs.goto (u := { s with action := .idle row }) ?_ (fun happlied =>
      absurd happlied hfresh) ?_ rfl trivial nofun
      (fun _ => trivial) (.inl ?_) (.inl fun happlied => absurd happlied hfresh)
    · refine ⟨fun happlied => absurd happlied hfresh, fun hexpected => ?_⟩
      exact absurd (.inr (hs.applied_iff.mpr (hsha.symm.trans hexpected))) hnot
    · intro _
      exact (Bool.not_eq_true _).mp fun hmoved => hnot (.inl hmoved)
    · intro hdone
      exact .inl (hdone.resolve_right hfresh)
  | setApplied action =>
    obtain ⟨hfailure, hfollow⟩ := hsound
    rw [set_applied hpc.1 hpc.2] at hrun
    rw [run_update hrun]
    exact hs.goto (u := { s with action := .idle (s.action.committed.applied data.expectedCommit) })
      ⟨fun _ => rfl, fun _ => rfl⟩
      (fun _ => hfailure) nofun rfl trivial nofun (fun _ => trivial)
        (.inr (Pc.Follows.not_failing hfollow)) (.inr hfollow)

theorem Lifecycle.step (hs : Lifecycle data s) (hu : Unwritten s) {label : Label}
    (hsound : Sound lib ids data s label) (h : (system lib ids data).step s label = .some t) :
    Lifecycle data t := by
  cases label with
  | request i answer =>
    obtain ⟨write, pc, u, hnext, hrun, rfl⟩ := requestStep_cases h
    exact hs.next hu hsound hnext hrun
  | commit sha =>
    cases h
    exact ⟨hs.applied_iff, hs.failure, hs.failed, hs.memory, hs.failing, hs.behind⟩

/-- An action that is APPLIED stays so. -/
theorem Lifecycle.applied_step (hs : Lifecycle data s) (hu : Unwritten s) {label : Label}
    (h : (system lib ids data).step s label = .some t)
    (happlied : s.action.committed.status = .applied) :
    t.action.committed.status = .applied := by
  cases label with
  | commit sha =>
    cases h
    exact happlied
  | request i answer =>
    obtain ⟨write, pc, u, hnext, hrun, rfl⟩ := requestStep_cases h
    have hpc := hs.memory i
    have hbehind := hs.behind happlied i
    generalize hat : s.requests i = pc₀ at hnext hpc hbehind
    cases hnext with
    | setApplying action hloaded => exact absurd hbehind hloaded
    | setFailed action code => exact absurd (.inr happlied) (hs.failing i action code hat)
    | setApplied action =>
      rw [set_applied hpc.1 hpc.2] at hrun
      rw [run_update hrun]
      rfl
    | _ =>
      rw [goto_action, run_committed hu hrun (by simp)]
      exact happlied

theorem reachable_unwritten (h : (system lib ids data).ReachableUnder (Sound lib ids data) s) :
    Unwritten s := by
  refine h.invariant (fun s hs i v hown => ?_) fun s label t hs _ hstep => step_unwritten hs hstep
  rw [hs.1] at hown
  cases hown

theorem reachable_lifecycle (h : (system lib ids data).ReachableUnder (Sound lib ids data) s) :
    Lifecycle data s := by
  refine h.invariant_with (fun s => reachable_unwritten) (fun s hs => ?_)
    fun s label t hu hs hsound hstep => hs.step hu hsound hstep
  obtain ⟨haction, hmoved, hidle⟩ := hs
  refine ⟨?_, ?_, fun _ => hmoved, fun i => ?_, fun i action code hi => ?_, fun _ i => ?_⟩
  · rw [haction]
    exact ⟨nofun, nofun⟩
  · rw [haction]
    nofun
  · rw [hidle i]
    trivial
  · rw [hidle i] at hi
    cases hi
  · rw [hidle i]
    trivial

/-! ## One attempt by itself -/

/-- A sound step of request `i`, which is at `pc` in `v` with what it writes in `u`. -/
theorem run_goto {v : State} {pc' : Pc} (u : State) (answer : Answer)
    (hrun : (system lib ids data).Run (Sound lib ids data) s (v.goto i pc))
    (hsound : pc.Sound lib ids data (v.goto i pc) answer)
    (hnext : GitCommits.next lib ids data (v.goto i pc) pc answer = .some (write, pc'))
    (hwrite : write.run data (v.goto i pc) i = .some (u.goto i pc)) :
    (system lib ids data).Run (Sound lib ids data) s (u.goto i pc') := by
  have hstep : (system lib ids data).step (v.goto i pc) (.request i answer) =
      .some (u.goto i pc') := by
    change requestStep lib ids data (v.goto i pc) i answer = _
    rw [requestStep, goto_self, hnext]
    simp only [hwrite, Option.map_some, goto_goto]
  refine hrun.tail (a := .request i answer) ?_ hstep
  change ((v.goto i pc).requests i).Sound lib ids data (v.goto i pc) answer
  rw [goto_self]
  exact hsound

/-- The steps of an attempt whose checks pass. -/
def attempt (i : ℕ) (repo : Repository) : List Label :=
  ([.begin, .proceed, .proceed, .proceed, .evaluated .requireConfirmation true, .proceed, .proceed,
    .reads repo, .proceed, .reads repo, .proceed] : List Answer).map (.request i)

/-- The steps of one request leave the others where they are. -/
theorem exec_others {answers : List Answer} {j : ℕ}
    (h : (system lib ids data).exec s (answers.map (.request i)) = .some t) (hj : j ≠ i) :
    t.requests j = s.requests j := by
  induction answers generalizing s with
  | nil =>
    cases h
    rfl
  | cons answer answers ih =>
    rw [List.map_cons, System.exec] at h
    split at h
    next u hstep =>
      obtain ⟨write, pc, v, -, hrun, rfl⟩ := requestStep_cases hstep
      rw [ih h, goto_ne _ _ _ hj, run_requests hrun]
    next => cases h

/-- **An attempt nothing interferes with applies the action**: where the repository is as
it was prepared, it passes every check, moves the branch and records it. -/
theorem attempt_applies {repo : Repository} {commit : Commit} {store : ObjectStore}
    {entries : Replacements} {written : List (Bytes × IndexEntry)}
    (hs : (system lib ids data).Init s) (hshown : s.shows lib data repo = true)
    (hcheck : applyChecked lib ids repo data = .ok (.commit commit store entries))
    (hindex : indexEntries lib repo.worktree entries = .ok written) :
    ∃ t, (system lib ids data).Run (Sound lib ids data) s t ∧ t.Quiescent ∧ t.moved = true ∧
      t.action.committed = ⟨.applied, .some data.expectedCommit, .none⟩ := by
  obtain ⟨hopen, -, -⟩ := applyChecked_commit hcheck
  have hhead : s.head = data.expectedHead := by
    simp only [State.shows, hopen, bne_self_eq_false, Bool.false_or, beq_iff_eq] at hshown
    exact hshown.symm
  obtain ⟨action, head, moved, requests⟩ := s
  obtain ⟨rfl, rfl, hidle⟩ := hs
  change head = data.expectedHead at hhead
  change ∀ i, requests i = .idle at hidle
  have hfollow : ∀ (u : State) (pc : Pc), u.requests = requests → pc.Follows →
      ∀ j, ((u.goto 0 pc).requests j).Follows := by
    intro u pc hu hpc j
    by_cases hj : j = 0
    · rw [hj, goto_self]
      exact hpc
    · rw [goto_ne _ _ _ hj, hu, hidle j]
      trivial
  have hstart : (⟨.idle ⟨.pendingApproval, .none, .none⟩, head, false, requests⟩ : State) =
      State.goto ⟨.idle ⟨.pendingApproval, .none, .none⟩, head, false, requests⟩ 0 .idle := by
    simp [State.goto, ← hidle 0]
  have h : (system lib ids data).Run (Sound lib ids data)
      (State.goto ⟨.idle ⟨.pendingApproval, .none, .none⟩, head, false, requests⟩ 0 .idle)
      (State.goto ⟨.idle ⟨.pendingApproval, .none, .none⟩, head, false, requests⟩ 0 .idle) := .refl
  have h := run_goto _ .begin h trivial rfl rfl
  have h := run_goto _ .proceed h trivial rfl rfl
  have h := run_goto ⟨⟨⟨.pendingApproval, .none, .none⟩, .some (0, .none)⟩, head, false, requests⟩
    .proceed h trivial rfl rfl
  have h := run_goto _ .proceed h trivial rfl rfl
  have h := run_goto ⟨.idle ⟨.pendingApproval, .none, .none⟩, head, false, requests⟩
    (.evaluated .requireConfirmation true) h trivial rfl rfl
  have h := run_goto _ .proceed h trivial rfl rfl
  have h := run_goto ⟨.idle ⟨.applying, .none, .none⟩, head, false, requests⟩ .proceed h
    trivial rfl rfl
  have hready : GitCommits.next lib ids data
    (State.goto ⟨.idle ⟨.applying, .none, .none⟩, head, false, requests⟩ 0
      (.apply ⟨.applying, .none, .none⟩)) (.apply ⟨.applying, .none, .none⟩) (.reads repo) =
      .some (.none, .setBranch ⟨.applying, .none, .none⟩ entries) := by
    have hshown' :
      State.shows lib data (State.goto ⟨.idle ⟨.applying, .none, .none⟩, head, false, requests⟩ 0
      (.apply ⟨.applying, .none, .none⟩)) repo = true := hshown
    simp only [GitCommits.next, hshown', hcheck]
    rfl
  have hsound : ∀ code, applyChecked lib ids repo data ≠ .error (.tool code) := by
    intro code
    rw [hcheck]
    intro h
    cases h
  have h := run_goto _ (.reads repo) h (fun _ => hsound) hready rfl
  have hset : GitCommits.next lib ids data
    (State.goto ⟨.idle ⟨.applying, .none, .none⟩, head, false, requests⟩ 0
      (.setBranch ⟨.applying, .none, .none⟩ entries)) (.setBranch ⟨.applying, .none, .none⟩ entries)
        .proceed =
      .some (.moveBranch, .writeIndex ⟨.applying, .none, .none⟩ entries) := by
    simp only [GitCommits.next, goto_head, hhead, if_true]
  have hnotFailed : GitCommitStatus.applying ≠ .failed := by decide
  have h := run_goto ⟨.idle ⟨.applying, .none, .none⟩, data.expectedCommit, true, requests⟩ .proceed
    h
    ⟨fun _ => hhead, fun _ => ⟨hnotFailed, Pc.Follows.not_failing (hfollow _ _ rfl trivial)⟩⟩
      hset rfl
  have hwrite : GitCommits.next lib ids data
    (State.goto ⟨.idle ⟨.applying, .none, .none⟩, data.expectedCommit, true, requests⟩ 0
      (.writeIndex ⟨.applying, .none, .none⟩ entries))
        (.writeIndex ⟨.applying, .none, .none⟩ entries) (.reads repo) =
      .some (.none, .setApplied ⟨.applying, .none, .none⟩) := by
    simp only [GitCommits.next, hindex]
  have hresolved : ∀ code, indexEntries lib repo.worktree entries ≠ .error (.tool code) := by
    intro code
    rw [hindex]
    intro h
    cases h
  have h := run_goto _ (.reads repo) h (fun _ => hresolved) hwrite rfl
  have hlast : Write.run data
    (State.goto ⟨.idle ⟨.applying, .none, .none⟩, data.expectedCommit, true, requests⟩ 0
      (.setApplied ⟨.applying, .none, .none⟩)) 0
      (.update (GitCommitAction.set ⟨.applying, .none, .none⟩ ⟨.applying, .none, .none⟩
        (GitCommitAction.applied ⟨.applying, .none, .none⟩ data.expectedCommit))) =
      .some (State.goto ⟨.idle ⟨.applied, .some data.expectedCommit, .none⟩, data.expectedCommit,
        true, requests⟩ 0
        (.setApplied ⟨.applying, .none, .none⟩)) := by
    have hunset : (⟨.applying, .none, .none⟩ : GitCommitAction).resultingCommitSha ≠
        .some data.expectedCommit := by
      intro h
      cases h
    rw [set_applied rfl hunset]
    rfl
  have h := run_goto _ .proceed h ⟨rfl, hfollow _ _ rfl trivial⟩ rfl hlast
  rw [hstart]
  refine ⟨_, h, fun j => ?_, rfl, rfl⟩
  by_cases hj : j = 0
  · rw [hj, goto_self]
  · rw [goto_ne _ _ _ hj]
    exact hidle j

end

/-- **The lifecycle of a git commit action**, in every run whose steps are sound: APPLIED
stays, it stands with the expected commit and no failure code, and a FAILED action did not
move the branch. -/
theorem commit_action_lifecycle (lib : Library) (ids : ObjectIds) (data : ApplyArguments)
    (s : State) (h : (system lib ids data).ReachableUnder (Sound lib ids data) s) :
    ((s.action.committed.status = .applied ↔
      s.action.committed.resultingCommitSha = .some data.expectedCommit) ∧
      (s.action.committed.status = .applied → s.action.committed.failureCode = .none)) ∧
    (s.action.committed.status = .failed → s.moved = false) ∧
    ∀ t, (system lib ids data).Run (Sound lib ids data) s t → s.action.committed.status = .applied →
      t.action.committed.status = .applied := by
  have hs := reachable_lifecycle h
  refine ⟨⟨hs.applied_iff, hs.failure⟩, hs.failed, fun t hrun happlied => ?_⟩
  induction hrun with
  | refl => exact happlied
  | tail hrun _ hstep ih =>
    have hmiddle := h.run hrun
    exact (reachable_lifecycle hmiddle).applied_step (reachable_unwritten hmiddle) hstep ih

/-! ## The one-file repository -/

/-- The action of the one-file repository, before any request. -/
def exampleStart : State :=
  ⟨.idle ⟨.pendingApproval, .none, .none⟩, exampleBase, false, fun _ => .idle⟩

theorem exampleStart_init : (system exampleLibrary exampleIds exampleArguments).Init exampleStart :=
  ⟨rfl, rfl, fun _ => rfl⟩

/-- A second request that reads the action before the first one applies it. -/
def overtaken : List Label :=
  .request 1 .begin :: attempt 0 (exampleRepository (encode ['b'])) ++
    ([.proceed, .proceed, .proceed, .evaluated .requireConfirmation true, .proceed] :
      List Answer).map (.request 1)

/-- An attempt on the file as it was before the mutation. -/
def stale : List Label :=
  ([.begin, .proceed, .proceed, .proceed, .evaluated .requireConfirmation true, .proceed, .proceed,
    .reads (exampleRepository (encode ['a'])), .proceed] : List Answer).map (.request 0)

/-- An attempt that moves the branch, and before whose index entries the file goes away. -/
def unfinished : List Label :=
  ([.begin, .proceed, .proceed, .proceed, .evaluated .requireConfirmation true, .proceed, .proceed,
    .reads (exampleRepository (encode ['b'])), .proceed,
    .reads { exampleRepository (encode ['b']) with worktree := .directory [] }, .proceed] :
      List Answer).map (.request 0)

/-- What an attempt finds, and what the three runs come to: the second request moves the
APPLIED action back to APPLYING, an attempt on the mutated file applies the action with
the failure code of the first, and the action whose attempt moved the branch is FAILED. -/
theorem example_runs :
    (exampleStart.shows exampleLibrary exampleArguments (exampleRepository (encode ['b'])) = true ∧
      applyChecked exampleLibrary exampleIds (exampleRepository (encode ['b'])) exampleArguments =
        .ok (.commit (changesetCommit exampleTreeB exampleBase ['n'] exampleIdentity 2000000)
          exampleStore exampleEntries) ∧
      indexEntries exampleLibrary (exampleRepository (encode ['b'])).worktree exampleEntries =
        .ok [(encode "a.txt".toList, ⟨exampleBlobB, 0o100644, 0⟩)]) ∧
    ((system exampleLibrary exampleIds exampleArguments).exec exampleStart overtaken).any (fun s =>
      ((system exampleLibrary exampleIds exampleArguments).step s (.request 1 .proceed)).any
      fun t =>
        decide (s.action.committed.status = .applied ∧ t.action.committed.status = .applying)) =
          true ∧
    ((system exampleLibrary exampleIds exampleArguments).exec exampleStart
      (stale ++ attempt 0 (exampleRepository (encode ['b'])))).any (fun s =>
        decide (s.action.committed = ⟨.applied, .some exampleCommit, .some "git_stale_worktree"⟩ ∧
          s.requests 0 = .idle)) = true ∧
    ((system exampleLibrary exampleIds exampleArguments).exec exampleStart unfinished).any (fun s =>
      decide (s.action.committed.status = .failed ∧ s.moved = true)) = true := by
  decide +kernel

/-- The action of the one-file repository, applied. -/
theorem commit_action_lifecycle_example :
    ∃ s : State, (system exampleLibrary exampleIds exampleArguments).ReachableUnder
        (Sound exampleLibrary exampleIds exampleArguments) s ∧
      s.action.committed = ⟨.applied, .some exampleCommit, .none⟩ ∧
      (s.action.committed.status = .applied ↔
        s.action.committed.resultingCommitSha = .some exampleCommit) := by
  obtain ⟨⟨hshows, happly, hindex⟩, -⟩ := example_runs
  obtain ⟨s, hrun, -, -, hs⟩ := attempt_applies exampleStart_init hshows happly hindex
  exact ⟨s, ⟨exampleStart, exampleStart_init, hrun⟩, hs,
    (commit_action_lifecycle exampleLibrary exampleIds
    exampleArguments s ⟨exampleStart, exampleStart_init, hrun⟩).1.1⟩

/-- **None of the three holds in every run**: a request that has read the action before it
was APPLIED moves it back, a retry that applies it leaves the failure code of an earlier
attempt, and a request that has moved the branch records it as FAILED. -/
theorem commit_action_lifecycle_lost :
    (∃ s label t, (system exampleLibrary exampleIds exampleArguments).Reachable s ∧
      (system exampleLibrary exampleIds exampleArguments).step s label = .some t ∧
      s.action.committed.status = .applied ∧ t.action.committed.status ≠ .applied) ∧
    (∃ s : State, (system exampleLibrary exampleIds exampleArguments).Reachable s ∧ s.Quiescent ∧
      s.action.committed.status = .applied ∧ s.action.committed.failureCode ≠ .none) ∧
    ∃ s : State, (system exampleLibrary exampleIds exampleArguments).Reachable s ∧
      s.action.committed.status = .failed ∧ s.moved = true := by
  obtain ⟨-, hoverwritten, hkept, hmoved⟩ := example_runs
  refine ⟨?_, ?_, ?_⟩
  · obtain ⟨s, hexec, hs⟩ := (Option.any_eq_true _ _).mp hoverwritten
    obtain ⟨t, hstep, ht⟩ := (Option.any_eq_true _ _).mp hs
    obtain ⟨happlied, happlying⟩ := of_decide_eq_true ht
    refine ⟨s, _, t, System.exec_reachable exampleStart_init hexec, hstep, happlied, ?_⟩
    rw [happlying]
    nofun
  · obtain ⟨s, hexec, hs⟩ := (Option.any_eq_true _ _).mp hkept
    obtain ⟨haction, hzero⟩ := of_decide_eq_true hs
    refine ⟨s, System.exec_reachable exampleStart_init hexec, fun j => ?_, ?_, ?_⟩
    · by_cases hj : j = 0
      · rw [hj, hzero]
      · rw [stale, attempt, ← List.map_append] at hexec
        exact exec_others hexec hj
    · rw [haction]
    · rw [haction]
      nofun
  · obtain ⟨s, hexec, hs⟩ := (Option.any_eq_true _ _).mp hmoved
    exact ⟨s, System.exec_reachable exampleStart_init hexec, of_decide_eq_true hs⟩

end Novalton.GitCommits
