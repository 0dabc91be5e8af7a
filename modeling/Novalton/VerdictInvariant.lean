/-
What a request may do to the worker, what each verification knows where it is, and what stands
behind a result that has passed: an invariant of every run.
-/
import Novalton.VerificationVerdict

namespace Novalton.VerificationVerdict

open SnapshotDigest (SourceTree Refusal stageSnapshot)
open VerificationWorker (Operation Surroundings Destroyed)

/-! ## What a request does to the worker -/

/-- What a request may do to the worker, and what its answer tells. -/
structure Effect (s : VerificationWorker.State) (operation : Operation) (around : Surroundings)
    (response : Option VerificationWorker.Response) (t : VerificationWorker.State) : Prop where
  recent : t.recent = s.recent
  drawn : s.drawn ≤ t.drawn
  pending : ∀ p, t.pending = .some p → s.pending = .some p ∨
    (p.capability = s.drawn ∧ p.runId = s.drawn ∧ t.drawn = s.drawn + 1 ∧ ∃ d,
      response = .some (.prepared s.drawn d))
  active : ∀ job, t.active = .some job → (∃ job', s.active = .some job' ∧ job'.runId = job.runId) ∨
    (s.active = .none ∧ ∃ p, s.pending = .some p ∧ p.runId = job.runId)
  busy : ∀ job, s.active = .some job → ∃ job', t.active = .some job' ∧ job'.runId = job.runId
  prepared : ∀ c d, response = .some (.prepared c d) →
    operation = .prepare ∧ c = s.drawn ∧ t.drawn = s.drawn + 1 ∧ around.staged = .staged d
  accepted : ∀ n, response = .some (.accepted n) →
    t.pending = .none ∧ ∃ p, s.pending = .some p ∧ operation = .verify p.capability ∧ p.runId = n
  snapshots : ∀ id ∈ t.snapshots, id ∈ s.snapshots ∨ id = s.drawn
  delivered : ∀ n, response = .some (.recent n) → s.recent = .some n ∧
    (operation = .result n ∨ operation = .cancel n ∨ operation = .cleanup n)

section
variable {s t : VerificationWorker.State} {operation : Operation} {around : Surroundings}
  {peerPid now : ℕ}

/-- An answer that changes nothing the histories depend on. -/
theorem Effect.plain {response : Option VerificationWorker.Response} (hrecent : t.recent = s.recent)
    (hdrawn : s.drawn ≤ t.drawn) (hpending : t.pending = s.pending ∨ t.pending = .none)
    (hactive : t.active.map (·.runId) = s.active.map (·.runId))
    (hsnapshots : ∀ id ∈ t.snapshots, id ∈ s.snapshots ∨ id = s.drawn)
    (hprepared : ∀ c d, response ≠ .some (.prepared c d))
    (haccepted : ∀ n, response ≠ .some (.accepted n))
    (hdelivered : ∀ n, response = .some (.recent n) → s.recent = .some n ∧
      (operation = .result n ∨ operation = .cancel n ∨ operation = .cleanup n)) :
      Effect s operation around response t where
  recent := hrecent
  drawn := hdrawn
  pending := by
    intro p hp
    rcases hpending with h | h
    · exact .inl (h ▸ hp)
    · rw [h] at hp
      cases hp
  active := by
    intro job hjob
    rw [hjob, Option.map_some] at hactive
    obtain ⟨job', hjob', heq⟩ := Option.map_eq_some_iff.mp hactive.symm
    exact .inl ⟨job', hjob', heq⟩
  busy := by
    intro job hjob
    rw [hjob, Option.map_some] at hactive
    exact Option.map_eq_some_iff.mp hactive
  prepared := fun c d h => absurd h (hprepared c d)
  accepted := fun n h => absurd h (haccepted n)
  snapshots := hsnapshots
  delivered := hdelivered

/-- An answer that leaves the state as it is. -/
theorem Effect.same {response : Option VerificationWorker.Response}
    (hprepared : ∀ c d, response ≠ .some (.prepared c d))
    (haccepted : ∀ n, response ≠ .some (.accepted n))
    (hdelivered : ∀ n, response = .some (.recent n) → s.recent = .some n ∧
      (operation = .result n ∨ operation = .cancel n ∨ operation = .cleanup n)) :
    Effect s operation around response s :=
  .plain rfl (le_refl _) (.inl rfl) rfl (fun _ hid => .inl hid) hprepared haccepted hdelivered

/-- The expiry drops at most what is pending. -/
theorem expire_spec {current : VerificationWorker.State} {o : Destroyed}
    (h : s.expire now o = .some current) :
    current.recent = s.recent ∧ current.drawn = s.drawn ∧ current.active = s.active ∧
      (current.pending = s.pending ∨ current.pending = .none) ∧
      current.snapshots ⊆ s.snapshots := by
  unfold VerificationWorker.State.expire at h
  split at h
  next p hp =>
    split at h
    next =>
      unfold VerificationWorker.State.discardPending at h
      rw [hp] at h
      cases o with
      | removed => cases h; exact ⟨rfl, rfl, rfl, .inr rfl, fun _ hid => List.mem_of_mem_filter hid⟩
      | left => cases h; exact ⟨rfl, rfl, rfl, .inr rfl, fun _ hid => hid⟩
      | raised => cases h
    next => cases h; exact ⟨rfl, rfl, rfl, .inl rfl, fun _ hid => hid⟩
  next => cases h; exact ⟨rfl, rfl, rfl, .inl rfl, fun _ hid => hid⟩

theorem prepare_effect : Effect s .prepare around (s.prepare peerPid now around).1
    (s.prepare peerPid now around).2 := by
  unfold VerificationWorker.State.prepare
  split
  next => exact .same (by simp) (by simp) (by simp)
  next =>
    split
    next left hstaged =>
      refine .plain rfl (Nat.le_succ _) (.inl rfl) rfl ?_ (by simp) (by simp) (by simp)
      cases left with
      | true => exact fun id hid => (List.mem_cons.mp hid).symm
      | false => exact fun id hid => .inl hid
    next digest hstaged =>
      exact {
        recent := rfl
        drawn := Nat.le_succ _
        pending := by
          intro p hp
          cases hp
          exact .inr ⟨rfl, rfl, rfl, digest, rfl⟩
        active := fun job hjob => .inl ⟨job, hjob, rfl⟩
        busy := fun job hjob => ⟨job, hjob, rfl⟩
        prepared := by
          intro c d h
          cases h
          exact ⟨rfl, rfl, rfl, hstaged⟩
        accepted := by simp
        snapshots := fun id hid => (List.mem_cons.mp hid).symm
        delivered := by simp }

theorem verify_effect {capability : ℕ} (hexclusive : s.pending = .none ∨ s.active = .none) :
    Effect s (.verify capability) around (s.verify capability peerPid now around).1
      (s.verify capability peerPid now around).2 := by
  unfold VerificationWorker.State.verify
  split
  next => exact .same (by simp) (by simp) (by simp)
  next p hp =>
    have hidle : s.active = .none := hexclusive.resolve_left (by rw [hp]; simp)
    split
    next => exact .same (by simp) (by simp) (by simp)
    next hmatch =>
      simp only [ne_eq, decide_not, Bool.or_eq_true, Bool.not_eq_true', decide_eq_false_iff_not,
        not_or, not_not] at hmatch
      split
      next =>
        exact .plain rfl (le_refl _) (.inr rfl) rfl (fun _ hid => .inl hid) (by simp) (by simp)
          (by simp)
      next =>
        exact {
          recent := rfl
          drawn := le_refl _
          pending := by
            intro q hq
            cases hq
          active := by
            intro job hjob
            cases hjob
            exact .inr ⟨hidle, p, hp, rfl⟩
          busy := by
            intro job hjob
            rw [hidle] at hjob
            cases hjob
          prepared := by
            intro c d h
            dsimp only at h
            split at h <;> cases h
          accepted := by
            intro n h
            dsimp only at h
            split at h
            next =>
              cases h
              exact ⟨rfl, p, hp, by rw [hmatch.2], rfl⟩
            next => cases h
          snapshots := fun id hid => .inl hid
          delivered := by
            intro n h
            dsimp only at h
            split at h <;> cases h }

theorem ofRun_effect {cancels : Bool} {runId : ℕ}
    (hoperation : operation = .result runId ∨ operation = .cancel runId ∨
      operation = .cleanup runId) :
    Effect s operation around (s.ofRun cancels runId).1 (s.ofRun cancels runId).2 := by
  have hdelivered : s.recent = .some runId →
    ∀ n, (.some (.recent runId) : Option VerificationWorker.Response) = .some (.recent n) →
      s.recent = .some n ∧
        (operation = .result n ∨ operation = .cancel n ∨ operation = .cleanup n) := by
    intro hrecent n h
    cases h
    exact ⟨hrecent, hoperation⟩
  unfold VerificationWorker.State.ofRun
  split
  next job hjob =>
    split
    next =>
      refine .plain ?_ ?_ (.inl ?_) ?_ ?_ (by simp) (by simp) (by simp)
      all_goals cases cancels <;> simp +contextual [hjob]
    next =>
      split
      next hrecent => exact .same (by simp) (by simp) (hdelivered hrecent)
      next => exact .same (by simp) (by simp) (by simp)
  next =>
    split
    next hrecent => exact .same (by simp) (by simp) (hdelivered hrecent)
    next => exact .same (by simp) (by simp) (by simp)

/-- What an answer does after the expiry, it does to the state before. -/
theorem Effect.of_expire {current : VerificationWorker.State} {o : Destroyed}
    {response : Option VerificationWorker.Response} (hcurrent : s.expire now o = .some current)
    (h : Effect current operation around response t) : Effect s operation around response t := by
  obtain ⟨hrecent, hdrawn, hactive, hpending, hsnapshots⟩ := expire_spec hcurrent
  have hback : ∀ {p}, current.pending = .some p → s.pending = .some p := by
    intro p hp
    rcases hpending with hsame | hnone
    · exact hsame ▸ hp
    · rw [hnone] at hp
      cases hp
  exact {
    recent := h.recent.trans hrecent
    drawn := hdrawn ▸ h.drawn
    pending := by
      intro p hp
      rcases h.pending p hp with hold | hnew
      · exact .inl (hback hold)
      · rw [hdrawn] at hnew
        exact .inr hnew
    active := by
      intro job hjob
      rcases h.active job hjob with ⟨job', hjob', heq⟩ | ⟨hnone, p, hp, heq⟩
      · exact .inl ⟨job', hactive ▸ hjob', heq⟩
      · exact .inr ⟨hactive ▸ hnone, p, hback hp, heq⟩
    busy := fun job hjob => h.busy job (hactive.trans hjob)
    prepared := by
      intro c d hresponse
      obtain ⟨hoperation, hc, htaken, hstaged⟩ := h.prepared c d hresponse
      exact ⟨hoperation, hdrawn ▸ hc, hdrawn ▸ htaken, hstaged⟩
    accepted := by
      intro n hresponse
      obtain ⟨hfree, p, hp, hoperation, heq⟩ := h.accepted n hresponse
      exact ⟨hfree, p, hback hp, hoperation, heq⟩
    snapshots := by
      intro id hid
      rw [← hdrawn]
      exact (h.snapshots id hid).imp (fun hold => hsnapshots hold) fun hnew => hnew
    delivered := by
      intro n hresponse
      obtain ⟨hdelivered, hoperation⟩ := h.delivered n hresponse
      exact ⟨hrecent ▸ hdelivered, hoperation⟩ }

/-- Every request of a sound worker has such an effect. -/
theorem request_effect (h : VerificationWorker.Inv s) :
    Effect s operation around (s.request operation peerPid now around).1
      (s.request operation peerPid now around).2 := by
  unfold VerificationWorker.State.request
  split
  next => exact .same (by simp) (by simp) (by simp)
  next current hcurrent =>
    have hinv := (h.expire hcurrent).1
    apply Effect.of_expire hcurrent
    cases operation with
    | health =>
      show Effect current .health around
        (.some (.health current.blocked (current.active.isSome || current.pending.isSome))) current
      exact .same (by simp) (by simp) (by simp)
    | prepare => exact prepare_effect
    | verify capability => exact verify_effect hinv.exclusive
    | result runId => exact ofRun_effect (.inl rfl)
    | cancel runId => exact ofRun_effect (.inr (.inl rfl))
    | cleanup runId => exact ofRun_effect (.inr (.inr rfl))

end

/-! ## What stands behind a result -/

/-- The histories only grow, and a snapshot that is gone does not come back. -/
structure Grows (s t : State) : Prop where
  staged : s.staged ⊆ t.staged
  probed : s.probed ⊆ t.probed
  handed : s.handed ⊆ t.handed
  drawn : s.worker.drawn ≤ t.worker.drawn
  gone : ∀ id, id < s.worker.drawn → id ∉ s.worker.snapshots → id ∉ t.worker.snapshots

theorem Grows.of_eq {s t : State} (hstaged : t.staged = s.staged) (hprobed : t.probed = s.probed)
    (hhanded : t.handed = s.handed) (hdrawn : t.worker.drawn = s.worker.drawn)
    (hsnapshots : t.worker.snapshots ⊆ s.worker.snapshots) : Grows s t where
  staged := hstaged ▸ fun _ h => h
  probed := hprobed ▸ fun _ h => h
  handed := hhanded ▸ fun _ h => h
  drawn := hdrawn.ge
  gone _ _ h hid := h (hsnapshots hid)

/-- Only the histories tell. -/
theorem Grows.of_worker {s t : State} (hworker : t.worker = s.worker)
    (hstaged : t.staged = s.staged) (hprobed : t.probed = s.probed)
    (hhanded : t.handed = s.handed) : Grows s t :=
  .of_eq hstaged hprobed hhanded (by rw [hworker]) (by rw [hworker]; exact fun _ h => h)

/-- The run has a snapshot, handed out with this digest. -/
def Staged (s : State) (runId : ℕ) (digest : Text) : Prop :=
  ∃ staging ∈ s.staged, staging.runId = runId ∧ staging.sourceDigest = digest

/-- The checks and the termination are those of a probe of the run. -/
def Gathered (loads : Bytes → Report) (s : State) (runId : ℕ) (probe : Probe) : Prop :=
  ∃ run p, (runId, run) ∈ s.probed ∧ run.probe loads = .some p ∧ p.checks = probe.checks ∧
    p.termination = probe.termination

/-- What stands behind a result that has passed. -/
structure Earned (loads : Bytes → Report) (s : State) (result : Result) : Prop where
  staged : ∃ digest, Staged s result.runId digest ∧ result.sourceDigest = .some digest
  probed : ∃ probe checks, Gathered loads s result.runId probe ∧ probe.checks = .some checks ∧
    result.checks = .some checks ∧
    (probe.termination = .exited ∨ probe.termination = .timeout) ∧ checks.all Prod.snd = true
  populationEmpty : result.populationEmpty = true
  scratchDestroyed : result.scratchDestroyed = true
  snapshotDestroyed : result.snapshotDestroyed = true
  gone : result.runId < s.worker.drawn ∧ result.runId ∉ s.worker.snapshots

def Legit (loads : Bytes → Report) (s : State) (result : Result) : Prop :=
  result.state = .passed → Earned loads s result

/-- What a verification knows where it is. -/
def Pc.Knows (loads : Bytes → Report) (s : State) : Pc → Prop
  | .verify capability digest => Staged s capability digest
  | .result digest runId => Staged s runId digest
  | .compare digest runId value => Staged s runId digest ∧ value.runId = runId ∧ Legit loads s value
  | _ => True

/-- The run of a verification. -/
def Pc.run : Pc → Option ℕ
  | .result _ runId | .cancel runId | .compare _ runId _ => .some runId
  | .done (.ok verified) => .some verified.runId
  | _ => .none

/-- What holds of the verifications: each has been handed out its run. -/
structure Following (loads : Bytes → Report) (s : State) : Prop where
  requests : ∀ i, (s.requests i).Knows loads s
  handed : ∀ i n, (s.requests i).run = .some n → (.some i, n) ∈ s.handed

structure Inv (sha256 : Bytes → Text) (frames : ℕ) (loads : Bytes → Report) (s : State) : Prop where
  worker : VerificationWorker.Inv s.worker
  taken : ∀ staging ∈ s.staged, stageSnapshot sha256 frames staging.copied.root =
    .ok staging.sourceDigest
  /-- A run is accepted once, and is then not pending any more. -/
  handedOnce : (s.handed.map Prod.snd).Nodup
  handed : ∀ entry ∈ s.handed, entry.2 < s.worker.drawn ∧ ∀ p, s.worker.pending = .some p →
    p.runId ≠ entry.2
  probe : ∀ p, s.probe = .some p → ∃ job, s.worker.active = .some job ∧ Gathered loads s job.runId p
  linked : s.worker.recent = s.recent.map (·.runId)
  recent : ∀ r, s.recent = .some r → Legit loads s r
  recentFile : ∀ r, s.recentFile = .some r → Legit loads s r
  following : Following loads s

section
variable {sha256 : Bytes → Text} {frames : ℕ} {loads : Bytes → Report} {evidence : Evidence}
  {pid : ℕ → ℕ} {s t : State} {runId : ℕ} {digest : Text} {probe : Probe} {result : Result}
  {pc : Pc}

theorem Staged.grows (h : Staged s runId digest) (hgrows : Grows s t) : Staged t runId digest := by
  obtain ⟨staging, hstaging, heq⟩ := h
  exact ⟨staging, hgrows.staged hstaging, heq⟩

theorem Gathered.grows (h : Gathered loads s runId probe) (hgrows : Grows s t) :
    Gathered loads t runId probe := by
  obtain ⟨run, p, hrun, hp⟩ := h
  exact ⟨run, p, hgrows.probed hrun, hp⟩

theorem Earned.grows (h : Earned loads s result) (hgrows : Grows s t) : Earned loads t result where
  staged := by
    obtain ⟨digest, hstaged, heq⟩ := h.staged
    exact ⟨digest, hstaged.grows hgrows, heq⟩
  probed := by
    obtain ⟨probe, checks, hgathered, hrest⟩ := h.probed
    exact ⟨probe, checks, hgathered.grows hgrows, hrest⟩
  populationEmpty := h.populationEmpty
  scratchDestroyed := h.scratchDestroyed
  snapshotDestroyed := h.snapshotDestroyed
  gone := ⟨lt_of_lt_of_le h.gone.1 hgrows.drawn, hgrows.gone _ h.gone.1 h.gone.2⟩

theorem Legit.grows (h : Legit loads s result) (hgrows : Grows s t) : Legit loads t result :=
  fun hpassed => (h hpassed).grows hgrows

theorem Pc.Knows.grows (h : pc.Knows loads s) (hgrows : Grows s t) : pc.Knows loads t := by
  cases pc with
  | verify capability digest => exact Staged.grows h hgrows
  | result digest runId => exact Staged.grows h hgrows
  | compare digest runId value => exact ⟨h.1.grows hgrows, h.2.1, h.2.2.grows hgrows⟩
  | idle | health | prepare | cancel | done => trivial

theorem staged_of_digestOf (h : s.digestOf runId = .some digest) : Staged s runId digest := by
  obtain ⟨staging, hfind, heq⟩ := Option.map_eq_some_iff.mp h
  refine ⟨staging, List.mem_of_find?_eq_some hfind, ?_, heq⟩
  simpa using List.find?_some hfind

/-- The verifications do not move where a step is not theirs. -/
theorem Following.kept (h : Following loads s) (hgrows : Grows s t)
    (hrequests : t.requests = s.requests) : Following loads t where
  requests := by
    intro i
    rw [hrequests]
    exact (h.requests i).grows hgrows
  handed := by
    intro i n hi
    rw [hrequests] at hi
    exact hgrows.handed (h.handed i n hi)

/-- A verification may go on where what it comes to know holds, with a run it has been handed out.
-/
theorem Following.goto {i : ℕ} {pc' : Pc} (h : Following loads s) (hknows : pc'.Knows loads s)
    (hrun : ∀ n, pc'.run = .some n → (.some i, n) ∈ s.handed) : Following loads (s.goto i pc') := by
  have hrequests : ∀ j, (s.goto i pc').requests j = if j = i then pc' else s.requests j :=
    fun _ => rfl
  have hgrows : Grows s (s.goto i pc') := .of_worker rfl rfl rfl rfl
  constructor
  case requests =>
    intro j
    rw [hrequests]
    split
    · exact hknows.grows hgrows
    · exact (h.requests j).grows hgrows
  case handed =>
    intro j n hj
    rw [hrequests] at hj
    split at hj
    next heq =>
      rw [heq]
      exact hrun n hj
    next => exact h.handed j n hj

theorem Inv.goto {i : ℕ} {pc' : Pc} (h : Inv sha256 frames loads s) (hknows : pc'.Knows loads s)
    (hrun : ∀ n, pc'.run = .some n → (.some i, n) ∈ s.handed) : Inv sha256 frames loads
    (s.goto i pc') where
  worker := h.worker
  taken := h.taken
  handedOnce := h.handedOnce
  handed := h.handed
  probe := h.probe
  linked := h.linked
  recent := fun r hr => (h.recent r hr).grows (.of_worker rfl rfl rfl rfl)
  recentFile := fun r hr => (h.recentFile r hr).grows (.of_worker rfl rfl rfl rfl)
  following := h.following.goto hknows hrun

/-! ## Requests -/

section
variable {asker : Option ℕ} {operation : Operation} {peerPid now : ℕ} {around : Surroundings}
  {copied : Option SourceTree}

/-- What the answer of the worker tells a verification. -/
structure Told (loads : Bytes → Report) (t : State) (asker : Option ℕ) (operation : Operation)
    (reply : Reply) : Prop where
  prepared : ∀ c d, reply = .prepared c d → Staged t c d
  accepted : ∀ n, reply = .accepted n → operation = .verify n ∧ (asker, n) ∈ t.handed
  recent : ∀ v, reply = .recent v → Legit loads t v ∧ ∀ n, operation = .result n → v.runId = n

theorem stagedBy_grows (response : Option VerificationWorker.Response) :
    s.staged ⊆ s.stagedBy sha256 frames copied response := by
  unfold State.stagedBy
  split
  next =>
    split
    next => exact fun _ h => List.mem_cons_of_mem _ h
    next => exact fun _ h => h
  next => exact fun _ h => h

theorem stagedBy_taken {response : Option VerificationWorker.Response}
    (h : ∀ staging ∈ s.staged, stageSnapshot sha256 frames staging.copied.root =
      .ok staging.sourceDigest) :
    ∀ staging ∈ s.stagedBy sha256 frames copied response,
      stageSnapshot sha256 frames staging.copied.root = .ok staging.sourceDigest := by
  unfold State.stagedBy
  split
  next =>
    split
    next digest hdigest =>
      intro staging hstaging
      rcases List.mem_cons.mp hstaging with rfl | hold
      · exact hdigest
      · exact h staging hold
    next => exact h
  next => exact h

theorem handedBy_cases (response : Option VerificationWorker.Response) :
    (s.handedBy asker response = s.handed ∧ ∀ n, response ≠ .some (.accepted n)) ∨
      ∃ n, response = .some (.accepted n) ∧ s.handedBy asker response = (asker, n) :: s.handed := by
  unfold State.handedBy
  split
  next n => exact .inr ⟨n, rfl, rfl⟩
  next hnot => exact .inl ⟨rfl, fun n heq => hnot n heq⟩

theorem reply_prepared {response : Option VerificationWorker.Response} {c : ℕ} {d : Text}
    (h : s.reply response = .prepared c d) :
    ∃ n, response = .some (.prepared c n) ∧ s.digestOf c = .some d := by
  unfold State.reply at h
  split at h
  next => cases h
  next => cases h
  next capability n =>
    split at h
    next digest hdigest =>
      cases h
      exact ⟨n, rfl, hdigest⟩
    next => cases h
  next => cases h
  next => cases h
  next => split at h <;> cases h
  next => cases h

theorem reply_accepted {response : Option VerificationWorker.Response} {n : ℕ}
    (h : s.reply response = .accepted n) :
    response = .some (.accepted n) := by
  unfold State.reply at h
  split at h
  next => cases h
  next => cases h
  next => split at h <;> cases h
  next => cases h; rfl
  next => cases h
  next => split at h <;> cases h
  next => cases h

theorem reply_recent {response : Option VerificationWorker.Response} {v : Result}
    (h : s.reply response = .recent v) :
    ∃ n, response = .some (.recent n) ∧ s.recent = .some v := by
  unfold State.reply at h
  split at h
  next => cases h
  next => cases h
  next => split at h <;> cases h
  next => cases h
  next => cases h
  next n =>
    split at h
    next result hresult =>
      cases h
      exact ⟨n, rfl, hresult⟩
    next => cases h
  next => cases h

section
variable {response : Option VerificationWorker.Response} {worker : VerificationWorker.State}
  {around : Surroundings}

/-- What is accepted was pending before, and nothing is pending then. -/
theorem Inv.accepted_new (h : Inv sha256 frames loads s)
    (heffect : Effect s.worker operation around response worker) {n : ℕ}
    (hresponse : response = .some (.accepted n)) :
    worker.pending = .none ∧ operation = .verify n ∧ n < s.worker.drawn ∧
      ∀ entry ∈ s.handed, entry.2 ≠ n := by
  obtain ⟨hfree, p, hp, hoperation, heq⟩ := heffect.accepted n hresponse
  have hnumber := h.worker.numbered p hp
  have hlt := h.worker.drawn _ (h.worker.pending p hp).1
  refine ⟨hfree, by rw [hoperation, ← hnumber, heq], ?_, ?_⟩
  · rw [← heq, hnumber]
    exact hlt
  · intro entry hentry hsame
    exact (h.handed entry hentry).2 p hp (heq.trans hsame.symm)

theorem Inv.handedBy_once (h : Inv sha256 frames loads s)
    (heffect : Effect s.worker operation around response worker) :
    ((s.handedBy asker response).map Prod.snd).Nodup := by
  rcases @handedBy_cases s asker response with ⟨hsame, -⟩ | ⟨n, hresponse, hnew⟩
  · rw [hsame]
    exact h.handedOnce
  · rw [hnew, List.map_cons, List.nodup_cons]
    refine ⟨fun hmem => ?_, h.handedOnce⟩
    obtain ⟨entry, hentry, heq⟩ := List.mem_map.mp hmem
    exact (h.accepted_new heffect hresponse).2.2.2 entry hentry heq

/-- What is handed over is drawn, and not pending. -/
theorem Inv.handedBy_drawn (h : Inv sha256 frames loads s)
    (heffect : Effect s.worker operation around response worker) :
    ∀ entry ∈ s.handedBy asker response, entry.2 < worker.drawn ∧
      ∀ p, worker.pending = .some p → p.runId ≠ entry.2 := by
  have hold : ∀ entry ∈ s.handed, entry.2 < worker.drawn ∧ ∀ p, worker.pending = .some p →
      p.runId ≠ entry.2 := by
    intro entry hentry
    obtain ⟨hlt, hnot⟩ := h.handed entry hentry
    refine ⟨lt_of_lt_of_le hlt heffect.drawn, fun p hp => ?_⟩
    rcases heffect.pending p hp with hkept | ⟨-, hrunId, -⟩
    · exact hnot p hkept
    · omega
  rcases @handedBy_cases s asker response with ⟨hsame, -⟩ | ⟨n, hresponse, hnew⟩
  · rw [hsame]
    exact hold
  · rw [hnew]
    intro entry hentry
    rcases List.mem_cons.mp hentry with rfl | hentry
    · obtain ⟨hfree, -, hlt, -⟩ := h.accepted_new heffect hresponse
      refine ⟨lt_of_lt_of_le hlt heffect.drawn, fun p hp => ?_⟩
      rw [hfree] at hp
      cases hp
    · exact hold entry hentry

end

/-- A request keeps the invariant, and its answer is true. -/
theorem Inv.request (h : Inv sha256 frames loads s) :
    Inv sha256 frames loads (s.request sha256 frames asker operation peerPid now around copied).2 ∧
      Grows s (s.request sha256 frames asker operation peerPid now around copied).2 ∧
      Told loads (s.request sha256 frames asker operation peerPid now around copied).2 asker
        operation
        (s.request sha256 frames asker operation peerPid now around copied).1 := by
  have heffect : Effect s.worker operation (s.stages sha256 frames around copied)
      (s.worker.request operation peerPid now (s.stages sha256 frames around copied)).1
      (s.worker.request operation peerPid now (s.stages sha256 frames around copied)).2 :=
        request_effect h.worker
  have hinv : VerificationWorker.Inv (s.worker.request operation peerPid now
    (s.stages sha256 frames around copied)).2 := h.worker.request
  simp only [State.request]
  generalize s.worker.request operation peerPid now (s.stages sha256 frames around copied) =
    handled at heffect hinv
  obtain ⟨response, worker⟩ := handled
  generalize (if s.worker.active.isNone = true then (worker.active.map (·.runId)).or s.currentFile
    else s.currentFile) = currentFile
  generalize hafter : ({ s with
    worker := worker
    staged := s.stagedBy sha256 frames copied response
    handed := s.handedBy asker response
    currentFile := currentFile } : State) = after
  have hhanded := @handedBy_cases s asker response
  have hgrows : Grows s after := by
    subst hafter
    refine ⟨stagedBy_grows response, fun _ hmem => hmem, ?_, heffect.drawn, ?_⟩
    · rcases hhanded with ⟨hsame, -⟩ | ⟨n, -, hnew⟩
      · exact hsame ▸ fun _ hmem => hmem
      · exact hnew ▸ fun _ hmem => List.mem_cons_of_mem _ hmem
    · intro id hlt hgone hid
      rcases heffect.snapshots id hid with hold | hnew
      · exact hgone hold
      · omega
  have hrecent : after.recent = s.recent := by rw [← hafter]
  refine ⟨?_, hgrows, ?_⟩
  · subst hafter
    constructor
    case worker => exact hinv
    case taken => exact stagedBy_taken h.taken
    case handedOnce => exact h.handedBy_once heffect
    case handed => exact h.handedBy_drawn heffect
    case probe =>
      intro p hp
      obtain ⟨job, hjob, hgathered⟩ := h.probe p hp
      obtain ⟨job', hjob', heq⟩ := heffect.busy job hjob
      exact ⟨job', hjob', heq ▸ hgathered.grows hgrows⟩
    case linked => exact heffect.recent.trans h.linked
    case recent => exact fun r hr => (h.recent r hr).grows hgrows
    case recentFile => exact fun r hr => (h.recentFile r hr).grows hgrows
    case following => exact h.following.kept hgrows rfl
  · constructor
    case prepared =>
      intro c d hreply
      obtain ⟨n, -, hdigest⟩ := reply_prepared hreply
      exact staged_of_digestOf hdigest
    case accepted =>
      intro n hreply
      have hresponse := reply_accepted hreply
      refine ⟨(h.accepted_new heffect hresponse).2.1, ?_⟩
      subst hafter hresponse
      exact List.mem_cons_self
    case recent =>
      intro v hreply
      obtain ⟨n, hresponse, hv⟩ := reply_recent hreply
      rw [hrecent] at hv
      refine ⟨(h.recent v hv).grows hgrows, ?_⟩
      intro m hm
      obtain ⟨hn, hoperation⟩ := heffect.delivered n hresponse
      rw [h.linked, hv, Option.map_some] at hn
      rw [hm] at hoperation
      simp at hoperation
      exact (Option.some.inj hn).trans hoperation.symm

/-- Where the answer leads, it is known what is to be known there. -/
theorem Inv.answered {i : ℕ} {late : Bool} {reply : Reply} (h : Inv sha256 frames loads s)
    (ht : Inv sha256 frames loads t) (hgrows : Grows s t)
    (hoperation : (s.requests i).operation = .some operation)
    (htold : Told loads t (.some i) operation reply) :
    Inv sha256 frames loads (t.goto i ((s.requests i).answered evidence late reply)) := by
  have hknown := h.following.requests i
  have hown : ∀ n, (s.requests i).run = .some n → (.some i, n) ∈ t.handed :=
    fun n hn => hgrows.handed (h.following.handed i n hn)
  refine ht.goto ?_ ?_
  · unfold Pc.answered
    split
    next => trivial
    next => split <;> trivial
    next hpc hprepared =>
      split
      next => exact htold.prepared _ _ rfl
      next => trivial
    next capability digest runId hpc =>
      rw [hpc] at hoperation hknown
      have haccepted := (htold.accepted _ rfl).1
      cases hoperation
      cases haccepted
      exact Staged.grows hknown hgrows
    next hpc =>
      split
      next => trivial
      next =>
        rw [hpc] at hknown
        exact Staged.grows hknown hgrows
    next digest runId value hpc =>
      rw [hpc] at hoperation hknown
      cases hoperation
      obtain ⟨hlegit, hown⟩ := htold.recent _ rfl
      exact ⟨Staged.grows hknown hgrows, hown _ rfl, hlegit⟩
    next => trivial
    next => trivial
  · intro n hn
    unfold Pc.answered at hn
    split at hn
    next => cases hn
    next => split at hn <;> cases hn
    next => split at hn <;> cases hn
    next capability digest runId hpc =>
      cases hn
      exact (htold.accepted _ rfl).2
    next hpc =>
      rw [hpc] at hown
      split at hn
      next => exact hown n hn
      next => exact hown n hn
    next digest runId value hpc =>
      rw [hpc] at hown
      exact hown n hn
    next => cases hn
    next => cases hn

/-- A verification makes one request. -/
theorem Inv.call {i : ℕ} {delivery : Delivery} {late : Bool} (h : Inv sha256 frames loads s)
    (hstep : s.call sha256 frames evidence pid i now around copied delivery late = .some t) :
    Inv sha256 frames loads t := by
  unfold State.call at hstep
  split at hstep
  next => cases hstep
  next operation hoperation =>
    obtain ⟨hinv, hgrows, htold⟩ :=
      @Inv.request sha256 frames loads s (.some i) operation (pid i) now around copied h
    cases delivery with
    | lost =>
      cases hstep
      exact h.goto trivial (fun n hn => by cases hn)
    | unanswered =>
      cases hstep
      exact hinv.goto trivial (fun n hn => by cases hn)
    | answered =>
      cases hstep
      exact h.answered hinv hgrows hoperation htold

end

/-! ## The thread of the probe -/

theorem cleanupProbe_spec {v w : VerificationWorker.State} {empty : Bool} {o : Destroyed}
    (h : v.cleanupProbe empty o = .some w) :
    w.recent = v.recent ∧ w.drawn = v.drawn ∧ w.pending = v.pending ∧ w.snapshots ⊆ v.snapshots ∧
      ∃ job job', v.active = .some job ∧ w.active = .some job' ∧ job'.runId = job.runId := by
  unfold VerificationWorker.State.cleanupProbe at h
  split at h
  next job hjob =>
    split at h
    next =>
      split at h
      next => cases h; exact ⟨rfl, rfl, rfl, fun _ hid => hid, job, _, hjob, rfl, rfl⟩
      next =>
        split at h
        next => cases h; exact ⟨rfl, rfl, rfl, fun _ hid => List.mem_of_mem_filter hid, job, _,
          hjob, rfl, rfl⟩
        next => cases h; exact ⟨rfl, rfl, rfl, fun _ hid => hid, job, _, hjob, rfl, rfl⟩
      next => cases h; exact ⟨rfl, rfl, rfl, fun _ hid => hid, job, _, hjob, rfl, rfl⟩
    next => cases h
  next => cases h

theorem finishProbe_spec {v w : VerificationWorker.State} {written : Bool}
    (h : v.finishProbe written = .some w) :
    ∃ job, v.active = .some job ∧ w.recent = .some job.runId ∧ w.drawn = v.drawn ∧
      w.pending = v.pending ∧ w.snapshots = v.snapshots := by
  unfold VerificationWorker.State.finishProbe at h
  split at h
  next job hjob =>
    split at h
    next =>
      cases h
      exact ⟨job, hjob, rfl, rfl, rfl, rfl⟩
    next => cases h
  next => cases h

theorem passed_spec {empty destroyed : Bool} (h : probe.passed empty destroyed = true) :
    empty = true ∧ destroyed = true ∧ (probe.termination = .exited ∨ probe.termination = .timeout) ∧
      ∃ checks, probe.checks = .some checks ∧ checks.all Prod.snd = true := by
  simp only [Probe.passed, Bool.and_eq_true, Bool.or_eq_true, decide_eq_true_eq] at h
  obtain ⟨⟨⟨hchecks, hempty⟩, hdestroyed⟩, htermination⟩ := h
  refine ⟨hempty, hdestroyed, htermination, ?_⟩
  cases hprobe : probe.checks with
  | none =>
    rw [hprobe] at hchecks
    cases hchecks
  | some checks =>
    rw [hprobe] at hchecks
    exact ⟨checks, rfl, hchecks⟩

/-- The result of a run has passed only for what its probe came to. -/
theorem result_legit {empty destroyed : Bool} (hgathered : Gathered loads s runId probe)
    (hstaged : Staged s runId digest)
    (hgone : destroyed = true → runId < s.worker.drawn ∧ runId ∉ s.worker.snapshots) :
    Legit loads s (probe.result runId digest empty destroyed) := by
  intro hpassed
  have hprobe : probe.passed empty destroyed = true := by
    simp only [Probe.result] at hpassed
    split at hpassed
    next h => exact h
    next => cases hpassed
  obtain ⟨hempty, hdestroyed, htermination, checks, hchecks, hall⟩ := passed_spec hprobe
  exact {
    staged := ⟨digest, hstaged, rfl⟩
    probed := ⟨probe, checks, hgathered, hchecks, hchecks, htermination, hall⟩
    populationEmpty := hempty
    scratchDestroyed := hempty
    snapshotDestroyed := hdestroyed
    gone := hgone hdestroyed }

theorem Inv.collect {run : ProbeRun} (h : Inv sha256 frames loads s) (hstep : s.collect loads run = .some t) :
    Inv sha256 frames loads t := by
  unfold State.collect at hstep
  split at hstep
  next job probe hjob _ hprobe =>
    split at hstep
    next =>
      cases hstep
      have hgrows : Grows s { s with probe := .some probe, probed :=
          (job.runId, run) :: s.probed } :=
        { Grows.of_worker (s := s) (t := s) rfl rfl rfl rfl with probed := fun _ hmem => List.mem_cons_of_mem _ hmem }
      exact {
        worker := h.worker
        taken := h.taken
        handedOnce := h.handedOnce
        handed := h.handed
        probe := by
          intro p hp
          cases hp
          exact ⟨job, hjob, run, probe, List.mem_cons_self, hprobe, rfl, rfl⟩
        linked := h.linked
        recent := fun r hr => (h.recent r hr).grows hgrows
        recentFile := fun r hr => (h.recentFile r hr).grows hgrows
        following := h.following.kept hgrows rfl }
    next => cases hstep
  next => cases hstep

theorem Inv.cleanup {empty fails : Bool} {o : Destroyed} {helper : Bytes}
    (h : Inv sha256 frames loads s)
    (hstep : s.cleanup empty o fails helper = .some t) : Inv sha256 frames loads t := by
  unfold State.cleanup at hstep
  split at hstep
  next probe worker hprobe hworker =>
    cases hstep
    obtain ⟨hrecent, hdrawn, hpending, hsnapshots, job, job', hjob, hjob', heq⟩ :=
      cleanupProbe_spec hworker
    have hgrows : Grows s { s with worker := worker, probe := .some (probe.cleaned fails helper) } := .of_eq rfl rfl rfl hdrawn hsnapshots
    exact {
      worker := h.worker.cleanupProbe hworker
      taken := h.taken
      handedOnce := h.handedOnce
      handed := by
        simp only [hdrawn, hpending]
        exact h.handed
      probe := by
        intro p hp
        cases hp
        obtain ⟨found, hfound, hgathered⟩ := h.probe probe hprobe
        obtain rfl := Option.some.inj (hfound.symm.trans hjob)
        exact ⟨job', hjob', heq ▸ hgathered⟩
      linked := hrecent.trans h.linked
      recent := fun r hr => (h.recent r hr).grows hgrows
      recentFile := fun r hr => (h.recentFile r hr).grows hgrows
      following := h.following.kept hgrows rfl }
  next => cases hstep

theorem Inv.finish {stored written : Bool} (h : Inv sha256 frames loads s)
    (hstep : s.finish stored written = .some t) :
    Inv sha256 frames loads t := by
  unfold State.finish at hstep
  split at hstep
  next job probe worker hjob hprobe hworker =>
    split at hstep
    next empty destroyed digest hthread hdigest =>
      split at hstep
      next => cases hstep
      next =>
        obtain ⟨found, hfound, hrecent, hdrawn, hpending, hsnapshots⟩ := finishProbe_spec hworker
        obtain rfl := Option.some.inj (hfound.symm.trans hjob)
        obtain ⟨gathered, hgatheredJob, hgathered⟩ := h.probe probe hprobe
        obtain rfl := Option.some.inj (hgatheredJob.symm.trans hjob)
        have hgone : destroyed = true → gathered.runId < s.worker.drawn ∧
            gathered.runId ∉ s.worker.snapshots := by
          rintro rfl
          exact ⟨h.worker.running _ hjob, h.worker.gone _ empty hjob hthread⟩
        have hlegit : Legit loads s (probe.result gathered.runId digest empty destroyed) :=
          result_legit hgathered (staged_of_digestOf hdigest) hgone
        have hgrows : Grows s t := by
          cases hstep
          exact .of_eq rfl rfl rfl hdrawn (by rw [hsnapshots]; exact fun _ hid => hid)
        cases hstep
        exact {
          worker := h.worker.finishProbe hworker
          taken := h.taken
          handedOnce := h.handedOnce
          handed := by
            simp only [hdrawn, hpending]
            exact h.handed
          probe := by
            intro p hp
            cases hp
          linked := hrecent
          recent := by
            intro r hr
            cases hr
            exact hlegit.grows hgrows
          recentFile := by
            intro r hr
            dsimp only at hr
            split at hr
            next =>
              cases hr
              exact hlegit.grows hgrows
            next => exact (h.recentFile r hr).grows hgrows
          following := h.following.kept hgrows rfl }
    next => cases hstep
  next => cases hstep

/-! ## Every step -/

theorem recovered_legit {cleared : Bool} (h : Inv sha256 frames loads s)
    (hresult : s.recovered cleared = .some result) :
    Legit loads s result := by
  unfold State.recovered at hresult
  split at hresult
  next =>
    cases hresult
    intro hpassed
    cases hpassed
  next =>
    obtain ⟨kept, hkept, heq⟩ := Option.map_eq_some_iff.mp hresult
    split at heq
    next hreconciled =>
      subst heq
      intro hpassed
      rw [hreconciled] at hpassed
      cases hpassed
    next =>
      subst heq
      exact h.recentFile kept hkept

theorem Inv.restart {left : List ℕ} (h : Inv sha256 frames loads s)
    (hleft : left ⊆ s.worker.snapshots) :
    Inv sha256 frames loads (s.restart left) := by
  have hgrows : Grows s (s.restart left) := .of_eq rfl rfl rfl rfl hleft
  constructor
  case worker =>
    refine ⟨.inl rfl, fun _ => ⟨rfl, rfl⟩, ?_, ?_, List.nodup_nil, List.nodup_nil, ?_, ?_, ?_, ?_⟩
    · intro p hp
      cases hp
    · intro issue hissue
      cases hissue
    · intro acceptance hacceptance
      cases hacceptance
    · intro p hp
      cases hp
    · intro job hjob
      cases hjob
    · intro job empty hjob
      cases hjob
  case taken => exact h.taken
  case handedOnce => exact h.handedOnce
  case handed =>
    intro entry hentry
    refine ⟨(h.handed entry hentry).1, fun p hp => ?_⟩
    cases hp
  case probe =>
    intro p hp
    cases hp
  case linked => rfl
  case recent => exact fun r hr => (recovered_legit h hr).grows hgrows
  case recentFile => exact fun r hr => (recovered_legit h hr).grows hgrows
  case following => exact h.following.kept hgrows rfl

theorem conclude_run {digested : Except Refusal Text} {value : Result}
    {verified : VerificationResult} (h : conclude digested digest runId value = .ok verified) :
    verified.runId = runId := by
  have hconcluded : ∀ stale, concluded digest runId value stale = .ok verified →
      verified.runId = runId := by
    intro stale hok
    unfold concluded at hok
    dsimp only at hok
    split at hok
    next => cases hok
    next =>
      split at hok
      next => cases hok
      next =>
        split at hok
        next => cases hok
        next =>
          cases hok
          rfl
  unfold conclude at h
  split at h
  next => exact hconcluded _ h
  next => exact hconcluded _ h
  next => cases h

/-- Every step keeps the invariant. -/
theorem Inv.step {label : Label} (h : Inv sha256 frames loads s)
    (hstep : VerificationVerdict.step sha256 frames loads evidence pid s label = .some t) :
    Inv sha256 frames loads t := by
  cases label with
  | begin i =>
    simp only [VerificationVerdict.step] at hstep
    split at hstep
    next =>
      cases hstep
      exact h.goto trivial (fun n hn => by cases hn)
    next => cases hstep
  | call i now around copied delivery late => exact h.call hstep
  | compare i reading =>
    simp only [VerificationVerdict.step] at hstep
    split at hstep
    next digest runId value hpc =>
      cases hstep
      refine h.goto trivial ?_
      intro n hn
      have hown := h.following.handed i runId (by rw [hpc]; rfl)
      cases houtcome : conclude (s.digested sha256 reading) digest runId value with
      | error failure =>
        rw [houtcome] at hn
        cases hn
      | ok verified =>
        rw [houtcome] at hn
        cases hn
        rw [conclude_run houtcome]
        exact hown
    next => cases hstep
  | other operation peerPid now around copied =>
    cases hstep
    exact h.request.1
  | collect run => exact h.collect hstep
  | cleanup empty o fails helper => exact h.cleanup hstep
  | finish stored written => exact h.finish hstep
  | restart left =>
    simp only [VerificationVerdict.step] at hstep
    split at hstep
    next hleft =>
      cases hstep
      exact h.restart fun id hid => List.contains_iff_mem.mp (List.all_eq_true.mp hleft id hid)
    next => cases hstep
  | edit source =>
    cases hstep
    have hgrows : Grows s { s with source := source } := .of_worker rfl rfl rfl rfl
    exact {
      worker := h.worker
      taken := h.taken
      handedOnce := h.handedOnce
      handed := h.handed
      probe := h.probe
      linked := h.linked
      recent := fun r hr => (h.recent r hr).grows hgrows
      recentFile := fun r hr => (h.recentFile r hr).grows hgrows
      following := h.following.kept hgrows rfl }

theorem inv_reachable (h : (system sha256 frames loads evidence pid).Reachable s) :
    Inv sha256 frames loads s := by
  refine h.invariant ?_ fun s label t hs hstep => hs.step hstep
  intro s hinit
  obtain ⟨hworker, hrecentId, hprobe, hrecent, hcurrentFile, hrecentFile, hrequests, hstaged,
    hprobed, hhanded⟩ := hinit
  exact {
    worker := VerificationWorker.inv ⟨s.worker, hworker, .refl⟩
    taken := by
      intro staging hstaging
      rw [hstaged] at hstaging
      cases hstaging
    handedOnce := by
      rw [hhanded]
      exact List.nodup_nil
    handed := by
      intro entry hentry
      rw [hhanded] at hentry
      cases hentry
    probe := by
      intro p hp
      rw [hprobe] at hp
      cases hp
    linked := by rw [hrecentId, hrecent, Option.map_none]
    recent := by
      intro r hr
      rw [hrecent] at hr
      cases hr
    recentFile := by
      intro r hr
      rw [hrecentFile] at hr
      cases hr
    following := {
      requests := by
        intro i
        rw [hrequests i]
        trivial
      handed := by
        intro i n hn
        rw [hrequests i] at hn
        cases hn } }

end

end Novalton.VerificationVerdict
