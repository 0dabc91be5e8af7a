/-
No result of another model is accepted by an execution or a continuation: what succeeds,
is called or waits rests on a generation of the routed target.

One direction is read off the events (`ExecuteLog.rests`); the other says that the rows
cannot come about without them (`Watched`).
-/
import Novalton.Attempts

namespace Novalton.Attempts

open Traced

/-! ## What an act rests on -/

/-- The generation whose result an event acts on. -/
def Event.basis : Event → Option Generation
  | .proposes generation | .suspends generation | .succeeds generation => .some generation
  | .started _ | .requested _ => .none

section
variable {env : ExecuteEnv} {basis : Generation → Prop} {log : List Event} {event : Event}
  {generation : Generation}

theorem ContinueLog.rests (h : ContinueLog basis log) (hevent : event ∈ log)
    (hbasis : event.basis = .some generation) :
    basis generation := by
  cases h with
  | refused => cases hevent
  | unrequested | requested => simp at hevent; grind [Event.basis]
  | succeeded hg => simp at hevent; grind [Event.basis]

theorem DeliverLog.rests (h : DeliverLog basis log) (hevent : event ∈ log)
    (hbasis : event.basis = .some generation) :
    basis generation := by
  cases h with
  | nothing => cases hevent
  | succeeded hg | suspended hg => simp at hevent; grind [Event.basis]
  | continued hg hlog =>
    rcases List.mem_cons.mp hevent with rfl | hevent
    · cases hbasis
      exact hg
    · exact hlog.rests hevent hbasis

theorem AttemptLog.rests {kind : AttemptKind} (h : AttemptLog basis kind log) (hevent : event ∈ log)
    (hbasis : event.basis = .some generation) : basis generation := by
  cases h with
  | nothing => cases hevent
  | unrequested => simp at hevent; grind [Event.basis]
  | requested hlog =>
    rcases List.mem_cons.mp hevent with rfl | hevent
    · cases hbasis
    · rcases List.mem_cons.mp hevent with rfl | hevent
      · cases hbasis
      · exact hlog.rests hevent hbasis

theorem FollowLog.rests (h : FollowLog env basis log) (hevent : event ∈ log)
    (hbasis : event.basis = .some generation) :
    basis generation := by
  cases h with
  | delivered hlog => exact hlog.rests hevent hbasis
  | extra hkind hlog => exact hlog.rests hevent hbasis

theorem ExecuteLog.rests (h : ExecuteLog env basis log) (hevent : event ∈ log)
    (hbasis : event.basis = .some generation) :
    basis generation := by
  cases h with
  | nothing => cases hevent
  | unrequested => simp at hevent; grind [Event.basis]
  | requested hlog =>
    rcases List.mem_cons.mp hevent with rfl | hevent
    · cases hbasis
    · rcases List.mem_cons.mp hevent with rfl | hevent
      · cases hbasis
      · exact hlog.rests hevent hbasis

end

/-- What the rows keep until one of the events `A`. -/
structure Watched (J : AgentDb → Prop) (A : Event → Prop) : Prop where
  agent : ∀ db target code, target ≠ .succeeded → target ≠ .waitingForApproval → J db →
    J (db.moveAgent target code)
  model : ∀ db slot target, J db → J (db.moveModel slot target)
  linked : ∀ db, J db → J { db with modelLinked := true }
  succeeds : (∀ db, J db → J (db.moveAgent .succeeded .none)) ∨ ∀ generation,
    A (.succeeds generation)
  suspends : (∀ db, J db → J (db.moveAgent .waitingForApproval .none)) ∨ ∀ generation,
    A (.suspends generation)
  proposes : (∀ db call, J db → J { db with call := call }) ∨ ∀ generation, A (.proposes generation)

section
variable {J : AgentDb → Prop} {A : Event → Prop}

theorem leaves_store {o : Outcome} {f : AgentDb → AgentDb} (h : ∀ db, J db → J (f db)) :
    Prog.Leaves J (Prog.store o f) := by
  cases o with
  | before e => exact Prog.Leaves.raise e
  | ok | after => exact (Prog.Leaves.write h).bind fun _ => Prog.Leaves.commit _

theorem leaves_ofExcept {α : Type} (r : Except Exn α) : Prog.Leaves J
    (Prog.ofExcept r : Prog AgentDb α) := fun _ h => h

theorem leaves_agentTransition {o : Outcome} {expected target : AgentRunStatus} {code : Option Text}
    (h : ∀ db, J db → J (db.moveAgent target code)) : Prog.Leaves J
    (agentTransition o expected target code) := by
  cases o with
  | before e => exact Prog.Leaves.raise e
  | ok | after =>
    refine Prog.Leaves.read.bind fun db => ?_
    split
    · exact Prog.Leaves.raise _
    · exact leaves_store h

theorem leaves_updateRunning {o : Outcome} {slot : ModelSlot} {f : AgentDb → AgentDb}
    (h : ∀ db, J db → J (f db)) :
    Prog.Leaves J (updateRunning o slot f) := by
  cases o with
  | before e => exact Prog.Leaves.raise e
  | ok | after =>
    refine Prog.Leaves.read.bind fun db => ?_
    split
    · exact Prog.Leaves.raise _
    · exact leaves_store h
    · exact Prog.Leaves.raise _

variable (w : Watched J A)
include w

theorem Watched.failAgentRun (o : Outcome) (code : Text) : Prog.Leaves J (failAgentRun o code) := by
  rw [Novalton.failAgentRun]
  split
  · exact leaves_agentTransition fun db => w.agent db .failed _ (by decide) (by decide)
  · exact Prog.Leaves.raise _

theorem Watched.cancelAgentRun (o : Outcome) : Prog.Leaves J (cancelAgentRun o) := by
  refine Prog.Leaves.read.bind fun db => ?_
  split
  · exact leaves_agentTransition fun db => w.agent db .cancelled _ (by decide) (by decide)
  · exact leaves_agentTransition fun db => w.agent db .cancelled _ (by decide) (by decide)

theorem Watched.markFailed (o : Outcome) (slot : ModelSlot) (failure : ProviderFailure) :
    Prog.Leaves J (markFailed o slot failure) := leaves_updateRunning fun db => w.model db slot _

theorem Watched.markSucceeded (o : Outcome) (slot : ModelSlot) : Prog.Leaves J
    (markSucceeded o slot) :=
  leaves_updateRunning fun db => w.model db slot _

theorem Watched.failWith (o : Outcome) (code : Text) : Prog.Leaves J (failWith o code) :=
  (w.failAgentRun o code).bind fun _ => Prog.Leaves.pure _

theorem Watched.failCall (oModel oAgent : Outcome) (slot : ModelSlot) (failure : ProviderFailure)
    (code : Text) :
    Prog.Leaves J (failCall oModel oAgent slot failure code) :=
      (w.markFailed oModel slot failure).bind fun _ => w.failWith oAgent code

theorem Watched.cancelCall (oModel oAgent : Outcome) (slot : ModelSlot) (raised : Exn) :
    Prog.Leaves J (cancelCall oModel oAgent slot raised) :=
  (w.markFailed oModel slot .cancellation).bind fun _ => (w.cancelAgentRun oAgent).bind fun _ =>
    Prog.Leaves.raise _

theorem Watched.startAttempt (o : Outcome) (slot : ModelSlot) (kind : AttemptKind) : Attests J A
    (startAttempt o slot kind) := by
  refine Attests.bind ?_ fun _ => Attests.lift (leaves_store fun db => w.model db slot .running)
  rw [emitIf]
  split
  · exact Attests.emit _
  · exact Attests.pure _

/-- A run succeeds with the event only. -/
theorem Watched.finishWith (o : Outcome) (generation : Generation) (result : AgentResult) :
    Attests J A (finishWith o generation result) := by
  rw [Attempts.finishWith, emitIf]
  by_cases hmap : (mapResultStatus result.status).1 = .succeeded
  · rw [if_pos (by simpa using hmap)]
    rcases w.succeeds with hkeep | hevent
    · refine (Attests.emit _).bind fun _ => Attests.lift ?_
      rw [Novalton.finishWith]
      split
      · exact (leaves_agentTransition hkeep).bind fun _ => Prog.Leaves.pure _
      · exact (w.cancelAgentRun o).bind fun _ => Prog.Leaves.pure _
      · exact (w.failAgentRun o _).bind fun _ => Prog.Leaves.pure _
    · exact Attests.emitted (hevent generation)
  · rw [if_neg (by simpa using hmap)]
    refine (Attests.pure _).bind fun _ => Attests.lift ?_
    rw [Novalton.finishWith]
    split
    next hsucceeded => exact absurd (congrArg Prod.fst hsucceeded) hmap
    next => exact (w.cancelAgentRun o).bind fun _ => Prog.Leaves.pure _
    next => exact (w.failAgentRun o _).bind fun _ => Prog.Leaves.pure _

omit w in
/-- The handlers act on no result. -/
theorem lifted_attests {handle : Exn → Option (Prog AgentDb Executed)}
    (h : ∀ e p, handle e = .some p → Prog.Leaves J p) (e : Exn) (p : Run Executed)
    (hp : (handle e).map lift = .some p) : Attests J A p := by
  cases hhandle : handle e with
  | none =>
    rw [hhandle] at hp
    cases hp
  | some q =>
    rw [hhandle] at hp
    cases hp
    exact Attests.lift (h e q hhandle)

theorem Watched.continueGeneration (env : ContinueEnv) : Prog.Leaves J
    (continueGeneration env) := by
  refine (leaves_ofExcept _).bind fun continuation => ?_
  split
  · exact Prog.Leaves.raise _
  · split
    · exact Prog.Leaves.raise _
    · exact (w.markSucceeded _ _).bind fun _ => (leaves_ofExcept _).bind fun _ => Prog.Leaves.pure _

theorem Watched.continueWithToolEvidence (env : ContinueEnv) : Attests J A
    (continueWithToolEvidence env) := by
  rw [Attempts.continueWithToolEvidence]
  split
  · exact Attests.lift (w.failWith _ _)
  · refine (w.startAttempt _ _ _).bind fun _ => (Attests.lift (Prog.Leaves.await _)).bind fun _ =>
      (Attests.emit _).bind fun _ => ?_
    refine Attests.tryReturn (Attests.lift (w.continueGeneration env)) (lifted_attests fun e p hp =>
      ?_) fun returned => ?_
    · cases e with
      | providerCancelled | taskCancelled =>
        cases hp
        exact w.cancelCall _ _ _ _
      | provider failure =>
        cases hp
        exact w.failCall _ _ _ _ _
      | application code | other => cases hp
    · obtain ⟨generation, continued⟩ := returned
      cases continued with
      | roundLimit => exact Attests.lift (w.failWith _ _)
      | invalid => exact Attests.lift (w.failWith _ _)
      | final result => exact w.finishWith _ _ _

variable (env : ExecuteEnv) (target : Target)

/-- A call is made with the event only, and so is a suspension. -/
theorem Watched.deliver (generation : Generation) (result : AgentResult) (proposals : Nat) :
    Attests J A (deliver env target generation result proposals) := by
  have hsuspend : Attests J A (emit (.suspends generation) >>=
      fun _ => lift (suspendAgentRun (env.outcome .suspend)) >>= fun _ =>
      pure (⟨.waitingForApproval, .some "tool_approval_required".toList, .some result⟩ :
          Executed)) := by
    rcases w.suspends with hkeep | hevent
    · exact (Attests.emit _).bind fun _ =>
        (Attests.lift (leaves_agentTransition hkeep)).bind fun _ => Attests.pure _
    · exact Attests.emitted (hevent generation)
  rw [Attempts.deliver]
  split
  · exact w.finishWith _ _ _
  · split
    · exact Attests.lift (w.failWith _ _)
    · rcases w.proposes with hkeep | hevent
      · have hproposal : Prog.Leaves J (executeProposal env.gateway) := by
          cases env.gateway with
          | returned status evidence failureCode =>
            exact (leaves_store fun db => hkeep db _).bind fun _ => Prog.Leaves.pure _
          | raised e left => exact (leaves_store fun db => hkeep db _).bind fun _ =>
            Prog.Leaves.raise _
        refine (Attests.emit _).bind fun _ => (Attests.lift hproposal).bind fun returned => ?_
        obtain ⟨status, evidence, failureCode⟩ := returned
        dsimp only
        split
        · exact hsuspend
        · split
          · exact Attests.lift (w.failWith _ _)
          · exact (Attests.lift (Prog.Leaves.await _)).bind fun _ => w.continueWithToolEvidence _
      · exact Attests.emitted (hevent generation)

theorem Watched.invalidResult : Prog.Leaves J (invalidResult env) := w.failWith _ _

theorem Watched.repaired (generation : Generation) : Attests J A
    (repaired env target generation) := by
  rw [Attempts.repaired]
  split
  · exact Attests.lift (Prog.Leaves.raise _)
  · exact Attests.lift (w.invalidResult env)
  · split
    · exact w.deliver env target generation _ _
    · exact Attests.lift (w.invalidResult env)

omit w in
theorem leaves_completeExtra (call : Except Exn Generation) : Prog.Leaves J
    (completeExtra env target call) := by
  refine (leaves_ofExcept _).bind fun generation => ?_
  split
  · exact Prog.Leaves.raise _
  · exact Prog.Leaves.pure _

theorem Watched.repairContract : Attests J A (repairContract env target) := by
  refine (w.startAttempt _ _ _).bind fun _ => (Attests.emit _).bind fun _ => ?_
  refine Attests.tryReturn (Attests.lift (leaves_completeExtra env target _))
    (lifted_attests fun e p hp => ?_) fun generation => ?_
  · cases e with
    | taskCancelled => cases hp
    | providerCancelled =>
      cases hp
      exact w.cancelCall _ _ _ _
    | provider failure | application code | other =>
      cases hp
      exact (w.markFailed _ _ _).bind fun _ => w.invalidResult env
  · refine Attests.tryReturn (Attests.lift (w.markSucceeded _ _)) (lifted_attests fun e p hp => ?_)
      fun _ => w.repaired env target generation
    cases e with
    | application code =>
      cases hp
      exact (w.markFailed _ _ _).bind fun _ => w.invalidResult env
    | taskCancelled | providerCancelled | provider failure | other => cases hp

theorem Watched.afterGeneration (generation : Generation) (extraUsed : Bool) :
    Attests J A (afterGeneration env target generation extraUsed) := by
  rw [Attempts.afterGeneration]
  split
  · exact Attests.lift (w.failWith _ _)
  · split
    · exact Attests.lift (Prog.Leaves.raise _)
    · exact Attests.lift (w.failWith _ _)
    · split
      · exact w.deliver env target generation _ _
      · split
        · exact w.repairContract env target
        · exact Attests.lift (w.invalidResult env)

theorem Watched.recoverTruncation (generation : Generation) : Attests J A
    (recoverTruncation env target generation) := by
  have hcall : Prog.Leaves J (recoveryCall env target) :=
    (leaves_completeExtra env target _).bind fun _ => (w.markSucceeded _ _).bind fun _ =>
      Prog.Leaves.pure _
  refine (w.startAttempt _ _ _).bind fun _ => (Attests.emit _).bind fun _ => ?_
  refine Attests.tryReturn (Attests.lift hcall) (fun e p hp => ?_) fun _ =>
    w.afterGeneration env target _ true
  cases e with
  | taskCancelled => cases hp
  | providerCancelled =>
    cases hp
    exact Attests.lift (w.cancelCall _ _ _ _)
  | provider failure | application code | other =>
    cases hp
    exact (Attests.lift (w.markFailed _ _ _)).bind fun _ => w.afterGeneration env target _ true

theorem Watched.afterFirstCall (generation : Generation) : Attests J A
    (afterFirstCall env target generation) := by
  rw [Attempts.afterFirstCall]
  split
  · exact Attests.lift (w.failCall _ _ _ _ _)
  · split
    · exact Attests.lift (w.failCall _ _ _ _ _)
    · refine Attests.tryReturn (Attests.lift (w.markSucceeded _ _)) (lifted_attests fun e p hp =>
        ?_) fun _ => ?_
      · cases e with
        | application code =>
          cases hp
          exact w.failCall _ _ _ _ _
        | taskCancelled | providerCancelled | provider failure | other => cases hp
      · split
        · exact w.recoverTruncation env target generation
        · exact w.afterGeneration env target generation false

theorem Watched.firstCall : Attests J A (firstCall env target) := by
  refine (Attests.lift (leaves_ofExcept _)).bind fun providerId => ?_
  split
  · exact Attests.lift (Prog.Leaves.raise _)
  · refine (Attests.lift (leaves_ofExcept _)).bind fun selected => ?_
    split
    · refine (Attests.lift (leaves_updateRunning fun _ h => h)).bind fun _ =>
        (Attests.emit _).bind fun _ => ?_
      exact (Attests.lift (leaves_ofExcept _)).bind fun _ => Attests.pure _
    · exact (Attests.lift (w.failCall _ _ _ _ _)).bind fun _ => Attests.pure _

theorem Watched.firstHandler (e : Exn) (p : Prog AgentDb Executed)
    (hp : firstHandler env target e = .some p) : Prog.Leaves J p := by
  cases e with
  | providerCancelled | taskCancelled =>
    cases hp
    exact w.cancelCall _ _ _ _
  | provider failure =>
    rw [Novalton.firstHandler] at hp
    split at hp
    next =>
      cases hp
      exact w.cancelCall _ _ _ _
    next =>
      cases hp
      exact w.failCall _ _ _ _ _
  | application code | other =>
    cases hp
    exact w.failCall _ _ _ _ _

theorem Watched.linkModelRun (o : Outcome) : Prog.Leaves J (linkModelRun o) := by
  refine (Prog.Leaves.await _).bind fun _ => Prog.Leaves.read.bind fun db => ?_
  split
  · exact (Prog.Leaves.write w.linked).bind fun _ => Prog.Leaves.pure _
  · exact Prog.Leaves.pure _

theorem Watched.runTarget : Attests J A (runTarget env target) := by
  refine (Attests.lift (Prog.Leaves.await _)).bind fun _ => (w.startAttempt _ _ _).bind fun _ => ?_
  refine (Attests.lift (w.linkModelRun _)).bind fun linked => ?_
  split
  · refine (Attests.lift (Prog.Leaves.commit _)).bind fun _ => ?_
    refine Attests.tryReturn (w.firstCall env target) (lifted_attests (w.firstHandler env target))
      fun a => ?_
    cases a with
    | inl response => exact Attests.pure _
    | inr generation => exact w.afterFirstCall env target generation
  · exact Attests.lift (w.failCall _ _ _ _ _)

theorem Watched.runRoute : Attests J A (runRoute env) := by
  rw [Attempts.runRoute]
  split
  · exact Attests.lift (Prog.Leaves.raise _)
  · exact Attests.lift (w.failWith _ _)
  · exact w.runTarget env _

theorem Watched.runMemory : Attests J A (runMemory env) := by
  rw [Attempts.runMemory]
  split
  · exact w.runRoute env
  · refine Attests.tryReturn (Attests.lift (Prog.Leaves.await _)) (lifted_attests fun e p hp => ?_)
      fun _ => w.runRoute env
    rw [memoryHandler] at hp
    split at hp
    next => cases hp
    next =>
      cases hp
      exact w.failWith _ _

/-- **The rows of an execution keep `J` until one of the events.** -/
theorem Watched.execute : Attests J A (execute env) := by
  refine (Attests.lift (leaves_ofExcept _)).bind fun enabled => ?_
  split
  · have hcreate : Prog.Leaves J (createAgentRun (env.outcome .createRun)) :=
      leaves_store fun db => w.agent db .created _ (by decide) (by decide)
    have hstart : Prog.Leaves J (startAgentRun (env.outcome .startRun)) :=
      leaves_agentTransition fun db => w.agent db .running _ (by decide) (by decide)
    refine (Attests.lift hcreate).bind fun _ => (Attests.lift hstart).bind fun _ => ?_
    refine (Attests.lift (leaves_ofExcept _)).bind fun denied => ?_
    cases denied with
    | some code => exact Attests.lift (w.failWith _ _)
    | none => exact w.runMemory env
  · exact Attests.lift (Prog.Leaves.raise _)

end

/-! ## Results of the target only -/

/-- What a run without an act leaves. -/
theorem watched_succeeds : Watched (fun db => db.agent ≠ .some .succeeded) fun event =>
    ∃ generation, event = .succeeds generation where
  agent := fun db target code hsucceeded _ _ => by
    rw [AgentDb.moveAgent_agent]
    exact fun h => hsucceeded (Option.some.inj h)
  model := fun _ _ _ h => h
  linked := fun _ h => h
  succeeds := .inr fun generation => ⟨generation, rfl⟩
  suspends := .inl fun db _ => by
    rw [AgentDb.moveAgent_agent]
    decide
  proposes := .inl fun _ _ h => h

theorem watched_suspends :
    Watched (fun db => db.agent ≠ .some .waitingForApproval) fun event => ∃ generation,
      event = .suspends generation where
  agent := fun db target code _ hsuspended _ => by
    rw [AgentDb.moveAgent_agent]
    exact fun h => hsuspended (Option.some.inj h)
  model := fun _ _ _ h => h
  linked := fun _ h => h
  succeeds := .inl fun db _ => by
    rw [AgentDb.moveAgent_agent]
    decide
  suspends := .inr fun generation => ⟨generation, rfl⟩
  proposes := .inl fun _ _ h => h

theorem watched_proposes (call : Option ToolExecutionStatus) :
    Watched (fun db => db.call = call) fun event => ∃ generation, event = .proposes generation where
  agent := fun db target code _ _ h => by
    rw [AgentDb.moveAgent_call]
    exact h
  model := fun _ _ _ h => h
  linked := fun _ h => h
  succeeds := .inl fun db h => by
    rw [AgentDb.moveAgent_call]
    exact h
  suspends := .inl fun db h => by
    rw [AgentDb.moveAgent_call]
    exact h
  proposes := .inr fun generation => ⟨generation, rfl⟩

/-- Of the events of a run from `before` and the rows it leaves: for a generation with `basis`
only, the agent run became SUCCEEDED or WAITING_FOR_APPROVAL, or a call was made. -/
structure RestsOn (basis : Generation → Prop) (log : List Event) (before left : AgentDb) :
    Prop where
  acts : ∀ event ∈ log, ∀ generation, event.basis = .some generation → basis generation
  succeeded : before.agent ≠ .some .succeeded → left.agent = .some .succeeded → ∃ generation,
    .succeeds generation ∈ log
  waiting : before.agent ≠ .some .waitingForApproval → left.agent = .some .waitingForApproval →
    ∃ generation, .suspends generation ∈ log
  called : left.call ≠ before.call → ∃ generation, .proposes generation ∈ log

/-- The event of a row that was not there. -/
theorem Attests.event {J : AgentDb → Prop} {A : Generation → Event} {p : Run Executed}
    {s : Session AgentDb} (h : Attests J (fun event => ∃ generation, event = A generation) p)
    (hs : Prog.Both J s) (hleft : ¬ J (p s).2.1.committed) :
    ∃ generation, A generation ∈ events p s := by
  rcases h s hs with hkept | ⟨event, hevent, generation, rfl⟩
  · exact absurd hkept.1 hleft
  · exact ⟨generation, hevent⟩

theorem RestsOn.of_attests {basis : Generation → Prop} {p : Run Executed} {before : AgentDb}
    (hacts : ∀ event ∈ events p ⟨before, before⟩, ∀ generation, event.basis = .some generation →
      basis generation)
    (hp : ∀ {J A}, Watched J A → Attests J A p) : RestsOn basis (events p ⟨before, before⟩) before
    (p ⟨before, before⟩).2.1.committed where
  acts := hacts
  succeeded := fun hbefore h =>
    Attests.event (hp watched_succeeds) ⟨hbefore, hbefore⟩ (not_not.mpr h)
  waiting := fun hbefore h => Attests.event (hp watched_suspends) ⟨hbefore, hbefore⟩ (not_not.mpr h)
  called := fun h => Attests.event (hp (watched_proposes before.call)) ⟨rfl, rfl⟩ h

/-- **No foreign result is accepted.** Whatever the providers return in an execution, or in a
continuation on its own, the agent run succeeds, and a call is made or waits, only for a
generation of the routed target: its provider and its model are the target's, and its
upstream provider, if it reports one, is the pinned one. -/
theorem results_rest_on_target (env : ExecuteEnv) (resumed : ContinueEnv) (before : AgentDb) :
    RestsOn (fun generation => ∃ target, env.route = .ok (.selected target) ∧
      Basis env.methods target generation)
        (events (execute env) ⟨before, before⟩) before
        (execute env ⟨before, before⟩).2.1.committed ∧
      RestsOn (Basis resumed.methods resumed.initial)
        (events (continueWithToolEvidence resumed) ⟨before, before⟩) before
        (continueWithToolEvidence resumed ⟨before, before⟩).2.1.committed := by
  constructor
  · refine RestsOn.of_attests ?_ fun w => w.execute env
    intro event hevent generation hbasis
    rcases execute_emits env ⟨before, before⟩ with hnil | ⟨target, hroute, hlog⟩
    · rw [hnil] at hevent
      cases hevent
    · exact ⟨target, hroute, hlog.rests hevent hbasis⟩
  · refine RestsOn.of_attests ?_ fun w => w.continueWithToolEvidence resumed
    intro event hevent generation hbasis
    exact ContinueLog.rests (continueWithToolEvidence_emits resumed ⟨before, before⟩) hevent hbasis

end Novalton.Attempts
