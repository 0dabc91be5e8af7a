/-
When the event stream is complete. What the stream has read so far ends at one event,
its position. A new event is reached when it is sent, is in the batch, or lies beyond
the position; before anything is read it must be among the newest events of one batch.
A commit that puts an event behind the position loses it for good, and so does the
commit that pushes an unread event out of the first batch; no other step loses one.
-/
import Novalton.RuntimeEvents

namespace Novalton.RuntimeEvents

variable {scope : Scope} {s t : State} {a : Label} {e : RuntimeEvent}

/-- The event up to which the stream has read. -/
def State.position (s : State) : Option RuntimeEvent := (s.current.toList ++ s.batch).getLast?

/-- An event of the scope committed after the subscription began. -/
structure New (scope : Scope) (s : State) (e : RuntimeEvent) : Prop where
  committed : e ∈ s.table
  inScope : scope.holds e = true
  late : e ∉ s.before

/-- The stream polls or sends, and nobody else does anything. -/
def turn (scope : Scope) (s : State) : State :=
  match s.batch with
  | [] => { s with batch := s.fetched scope }
  | event :: rest =>
    { s with current := .some event, batch := rest, delivered := s.delivered ++ [event] }

/-- What the stream promises of a state. -/
structure Complete (scope : Scope) (s : State) : Prop where
  /-- Deliveries are in the order of `(occurred_at, id)`, -/
  ordered : s.delivered.Pairwise fun x y => x.key < y.key
  /-- none overtakes an event that is still to be delivered, -/
  gapless : ∀ e, New scope s e → e ∉ s.delivered → ∀ x ∈ s.delivered, x.key < e.key
  /-- and every event committed since the subscription is delivered exactly once as the stream goes
  on. -/
  delivered : ∀ e, New scope s e → ∃ n, ∀ m, n ≤ m → ((turn scope)^[m] s).delivered.count e = 1

/-- A commit brings only events beyond what the stream has read; and while it has read
nothing, the events committed since the subscription are among the newest of one batch. -/
def Timely (scope : Scope) (s : State) : Label → Prop
  | .commit i => ∀ writer, s.writers i = .some writer →
    match s.position with
    | .some last => ∀ e ∈ writer.events, scope.holds e = true → last.key < e.key
    | .none => ∀ e ∈ s.table ++ writer.events, scope.holds e = true → e ∉ s.before →
      Window.rankFromTop RuntimeEvent.key ((s.table ++ writer.events).filter scope.holds) e <
        STREAM_BATCH_SIZE
  | _ => True

/-! ## What a step does -/

/-- The state after a poll, -/
def State.polled (scope : Scope) (s : State) : State := { s with batch := s.fetched scope }

/-- after an event of the batch is sent, -/
def State.sent (s : State) (event : RuntimeEvent) (rest : List RuntimeEvent) : State :=
  { s with current := .some event, batch := rest, delivered := s.delivered ++ [event] }

/-- and after a commit. -/
def State.grown (s : State) (i : ℕ) (events : List RuntimeEvent) : State :=
  { s.setWriter i .none with table := s.table ++ events }

/-- The steps as the stream sees them: the clock and the writers move, a transaction
commits, a batch is read, an event is sent. -/
inductive Next (scope : Scope) (s : State) : Label → State → Prop where
  | quiet {a : Label} {now : ℕ} {writers : ℕ → Option Writer} (ha : ∀ i, a ≠ .commit i) :
      Next scope s a { s with now := now, writers := writers }
  | commit {i : ℕ} {writer : Writer} (hwriter : s.writers i = .some writer)
      (hfresh : ∀ e ∈ writer.events, ∀ other ∈ s.table, other.id ≠ e.id) :
      Next scope s (.commit i) (s.grown i writer.events)
  | poll (hbatch : s.batch = []) : Next scope s .poll (s.polled scope)
  | send {event : RuntimeEvent} {rest : List RuntimeEvent} (hbatch : s.batch = event :: rest) :
      Next scope s .send (s.sent event rest)

theorem step_next (h : step scope s a = .some t) : Next scope s a t := by
  cases a with
  | tick =>
    cases h
    exact .quiet nofun
  | begin writer =>
    simp only [step] at h
    split at h
    next =>
      cases h
      exact .quiet nofun
    next => cases h
  | append writer id tenantId workspaceId =>
    simp only [step] at h
    split at h
    next =>
      split at h
      next => cases h
      next =>
        cases h
        exact .quiet nofun
    next => cases h
  | commit writer =>
    simp only [step] at h
    split at h
    next found hwriter =>
      split at h
      next => cases h
      next hfresh =>
        cases h
        refine .commit hwriter fun e he other hother hid => hfresh ?_
        exact List.any_eq_true.mpr ⟨e, he, List.any_eq_true.mpr ⟨other, hother, decide_eq_true hid⟩⟩
    next => cases h
  | rollback writer =>
    cases h
    exact .quiet nofun
  | poll =>
    simp only [step] at h
    split at h
    next hbatch =>
      cases h
      exact .poll (List.isEmpty_iff.mp hbatch)
    next => cases h
  | send =>
    simp only [step] at h
    split at h
    next => cases h
    next event rest hbatch =>
      cases h
      exact .send hbatch

/-- An open transaction's events have ids of their own. -/
def WriterIds (s : State) : Prop :=
  ∀ i writer, s.writers i = .some writer → (writer.events.map RuntimeEvent.id).Nodup

theorem WriterIds.set {i : ℕ} {value : Option Writer} (h : WriterIds s)
    (hvalue : ∀ writer, value = .some writer → (writer.events.map RuntimeEvent.id).Nodup) :
    WriterIds (s.setWriter i value) := by
  intro j writer hj
  simp only [State.setWriter, Function.update_apply] at hj
  split at hj
  · exact hvalue writer hj
  · exact h j writer hj

theorem WriterIds.step (h : WriterIds s) (hstep : step scope s a = .some t) : WriterIds t := by
  cases a with
  | tick =>
    cases hstep
    exact h
  | begin writer =>
    simp only [RuntimeEvents.step] at hstep
    split at hstep
    next =>
      cases hstep
      refine h.set fun fresh hfresh => ?_
      cases hfresh
      exact List.nodup_nil
    next => cases hstep
  | append writer id tenantId workspaceId =>
    simp only [RuntimeEvents.step] at hstep
    split at hstep
    next found hwriter =>
      split at hstep
      next => cases hstep
      next hany =>
        cases hstep
        refine h.set fun grown hgrown => ?_
        cases hgrown
        rw [List.map_append, List.nodup_append]
        refine ⟨h writer found hwriter, List.nodup_singleton _, ?_⟩
        intro x hx y hy
        obtain ⟨event, hevent, hid⟩ := List.mem_map.mp hx
        rw [List.map_singleton, List.mem_singleton] at hy
        intro heq
        refine hany (List.any_eq_true.mpr ⟨event, hevent, decide_eq_true ?_⟩)
        rw [hid, heq, hy]
    next => cases hstep
  | commit writer =>
    simp only [RuntimeEvents.step] at hstep
    split at hstep
    next =>
      split at hstep
      next => cases hstep
      next =>
        cases hstep
        exact h.set (i := writer) (s := s) nofun
    next => cases hstep
  | rollback writer =>
    cases hstep
    exact h.set nofun
  | poll =>
    simp only [RuntimeEvents.step] at hstep
    split at hstep
    next =>
      cases hstep
      exact h
    next => cases hstep
  | send =>
    simp only [RuntimeEvents.step] at hstep
    split at hstep
    next => cases hstep
    next =>
      cases hstep
      exact h

/-! ## The position -/

theorem position_of_batch_nil (h : s.batch = []) : s.position = s.current := by
  rw [State.position, h, List.append_nil]
  cases s.current <;> rfl

/-- Nothing is read exactly when there is neither a cursor nor a batch. -/
theorem position_eq_none (h : s.position = .none) : s.current = .none ∧ s.batch = [] := by
  rw [State.position, List.getLast?_eq_none_iff, List.append_eq_nil_iff] at h
  refine ⟨?_, h.2⟩
  cases hc : s.current with
  | none => rfl
  | some c =>
    rw [hc] at h
    cases h.1

theorem position_mem {last : RuntimeEvent} (h : s.position = .some last) : s.current = .some last ∨
    last ∈ s.batch := by
  have hmem := List.mem_of_getLast? h
  rw [List.mem_append, Option.mem_toList] at hmem
  exact hmem

/-- Sending moves along the batch, which ends where it did. -/
theorem position_send {event : RuntimeEvent} {rest : List RuntimeEvent}
    (hbatch : s.batch = event :: rest) :
    (s.sent event rest).position = s.position := by
  simp only [State.position, State.sent, hbatch, Option.toList_some, List.singleton_append,
    List.getLast?_append_cons]

/-! ## The invariant of the stream -/

/-- What holds in every state: committed ids are distinct, and the stream reads upwards. -/
structure Feed (scope : Scope) (s : State) : Prop where
  ids : (s.table.map RuntimeEvent.id).Nodup
  before : ∀ x ∈ s.before, x ∈ s.table
  sorted : (s.delivered ++ s.batch).Pairwise fun x y => x.key < y.key
  visible : ∀ x ∈ s.delivered ++ s.batch, x ∈ s.table ∧ scope.holds x = true
  unread : s.current = .none → s.delivered = []
  origin : ∀ cursor, s.current = .some cursor → cursor ∈ s.table ∧
    (cursor ∈ s.delivered ∨ cursor ∈ s.before)
  below : ∀ cursor, s.current = .some cursor → ∀ x ∈ s.delivered, x.key ≤ cursor.key
  above : ∀ cursor, s.current = .some cursor → ∀ x ∈ s.batch, cursor.key < x.key

theorem Subscribed.feed (h : Subscribed scope s) : Feed scope s where
  ids := h.ids
  before := fun x hx => h.before ▸ hx
  sorted := by rw [h.delivered, h.batch]; exact List.Pairwise.nil
  visible := fun x hx => by rw [h.delivered, h.batch] at hx; exact absurd hx List.not_mem_nil
  unread := fun _ => h.delivered
  origin := fun cursor hc => ⟨(h.cursor cursor hc).1, .inr (h.before ▸ (h.cursor cursor hc).1)⟩
  below := fun _ _ x hx => by rw [h.delivered] at hx; exact absurd hx List.not_mem_nil
  above := fun _ _ x hx => by rw [h.batch] at hx; exact absurd hx List.not_mem_nil

/-- The keys of any part of the table are distinct. -/
theorem Feed.keys (h : Feed scope s) (p : RuntimeEvent → Bool) :
    ((s.table.filter p).map RuntimeEvent.key).Nodup :=
  keys_nodup (h.ids.sublist (List.filter_sublist.map _))

/-- A batch is in order, visible, and beyond the cursor. -/
theorem Feed.fetched (h : Feed scope s) :
    (s.fetched scope).Pairwise (fun x y => x.key < y.key) ∧
      (∀ x ∈ s.fetched scope, x ∈ s.table ∧ scope.holds x = true) ∧
        ∀ cursor, s.current = .some cursor → ∀ x ∈ s.fetched scope, cursor.key < x.key := by
  cases hc : s.current with
  | none =>
    rw [fetched_none hc]
    refine ⟨Window.largest_pairwise (h.keys _), fun x hx => ?_, nofun⟩
    exact List.mem_filter.mp (Window.mem_of_mem_largest (List.mem_reverse.mp hx))
  | some cursor =>
    rw [fetched_some hc]
    have hmem : ∀ x ∈ Window.smallest RuntimeEvent.key STREAM_BATCH_SIZE
        (s.table.filter fun event => scope.holds event && decide (cursor.key < event.key)),
        x ∈ s.table ∧ scope.holds x = true ∧ cursor.key < x.key := by
      intro x hx
      have hfilter := List.mem_filter.mp (Window.mem_of_mem_smallest hx)
      rw [Bool.and_eq_true, decide_eq_true_eq] at hfilter
      exact hfilter
    refine ⟨Window.smallest_pairwise (h.keys _), fun x hx => ⟨(hmem x hx).1, (hmem x hx).2.1⟩, ?_⟩
    intro c hcursor x hx
    cases hcursor
    exact (hmem x hx).2.2

theorem Feed.next (h : Feed scope s) (hw : WriterIds s) (hnext : Next scope s a t) :
    Feed scope t := by
  cases hnext with
  | quiet _ => exact ⟨h.ids, h.before, h.sorted, h.visible, h.unread, h.origin, h.below, h.above⟩
  | @commit i writer hwriter hfresh =>
    have hids : ((s.table ++ writer.events).map RuntimeEvent.id).Nodup := by
      rw [List.map_append, List.nodup_append]
      refine ⟨h.ids, hw i writer hwriter, ?_⟩
      intro x hx y hy
      obtain ⟨old, hold, hx⟩ := List.mem_map.mp hx
      obtain ⟨new, hnew, hy⟩ := List.mem_map.mp hy
      rw [← hx, ← hy]
      exact hfresh new hnew old hold
    exact
      { ids := hids
        before := fun x hx => List.mem_append_left _ (h.before x hx)
        sorted := h.sorted
        visible := fun x hx => ⟨List.mem_append_left _ (h.visible x hx).1, (h.visible x hx).2⟩
        unread := h.unread
        origin := fun c hc => ⟨List.mem_append_left _ (h.origin c hc).1, (h.origin c hc).2⟩
        below := h.below
        above := h.above }
  | poll hbatch =>
    obtain ⟨hsorted, hvisible, habove⟩ := h.fetched
    have hdelivered : (s.delivered).Pairwise fun x y => x.key < y.key :=
      (List.pairwise_append.mp h.sorted).1
    exact
      { ids := h.ids
        before := h.before
        sorted := by
          refine List.pairwise_append.mpr ⟨hdelivered, hsorted, fun x hx y hy => ?_⟩
          change x ∈ s.delivered at hx
          cases hc : s.current with
          | none => rw [h.unread hc] at hx; exact absurd hx List.not_mem_nil
          | some c => exact lt_of_le_of_lt (h.below c hc x hx) (habove c hc y hy)
        visible := fun x hx => by
          rcases List.mem_append.mp hx with hx | hx
          · exact h.visible x (List.mem_append_left _ hx)
          · exact hvisible x hx
        unread := h.unread
        origin := h.origin
        below := h.below
        above := habove }
  | @send event rest hbatch =>
    have hsplit : s.delivered ++ s.batch = (s.delivered ++ [event]) ++ rest := by rw [hbatch]; simp
    have hsorted := h.sorted
    rw [hsplit] at hsorted
    obtain ⟨hsent, -, hcross⟩ := List.pairwise_append.mp hsorted
    exact
      { ids := h.ids
        before := h.before
        sorted := hsorted
        visible := fun x hx => h.visible x (hsplit ▸ hx)
        unread := nofun
        origin := fun c hc => by
          cases hc
          exact ⟨(h.visible event (by rw [hsplit]; simp)).1,
            .inl (List.mem_append_right _ List.mem_cons_self)⟩
        below := fun c hc x hx => by
          cases hc
          rcases List.mem_append.mp hx with hx | hx
          · exact le_of_lt
              ((List.pairwise_append.mp hsent).2.2 x hx event (List.mem_singleton.mpr rfl))
          · rw [List.mem_singleton.mp hx]
        above := fun c hc x hx => by
          cases hc
          exact hcross event (by simp) x hx }

/-! ## Events reached and events lost -/

/-- An event the stream has yet to come to. -/
def Ahead (scope : Scope) (s : State) (e : RuntimeEvent) : Prop :=
  match s.position with
  | .some last => last.key < e.key
  | .none => Window.rankFromTop RuntimeEvent.key (s.table.filter scope.holds) e < STREAM_BATCH_SIZE

/-- An event the stream has sent, holds in its batch, or has yet to come to. -/
def Reached (scope : Scope) (s : State) (e : RuntimeEvent) : Prop :=
  e ∈ s.delivered ∨ e ∈ s.batch ∨ Ahead scope s e

/-- A new event the stream has passed by. -/
def Lost (scope : Scope) (s : State) (e : RuntimeEvent) : Prop :=
  New scope s e ∧ ¬ Reached scope s e

theorem ahead_some {last : RuntimeEvent} (h : s.position = .some last) : Ahead scope s e ↔
    last.key < e.key := by
  rw [Ahead, h]

theorem ahead_none (h : s.position = .none) :
    Ahead scope s e ↔ Window.rankFromTop RuntimeEvent.key
      (s.table.filter scope.holds) e < STREAM_BATCH_SIZE := by
  rw [Ahead, h]

/-- The stream has sent nothing beyond its position. -/
theorem Feed.delivered_le (h : Feed scope s) {last x : RuntimeEvent}
    (hlast : s.position = .some last) (hx : x ∈ s.delivered) : x.key ≤ last.key := by
  rcases position_mem hlast with hc | hb
  · exact h.below last hc x hx
  · exact le_of_lt ((List.pairwise_append.mp h.sorted).2.2 x hx last hb)

/-- A poll that reads something leaves the position in its batch. -/
theorem polled_position {last : RuntimeEvent} (hlast : (s.polled scope).position = .some last)
    (hne : s.fetched scope ≠ []) :
    last ∈ s.fetched scope := by
  have hbatch : (s.polled scope).batch ≠ [] := hne
  rw [State.position, List.getLast?_append_of_ne_nil _ hbatch] at hlast
  exact List.mem_of_getLast? hlast

theorem polled_position_ne (hne : s.fetched scope ≠ []) : (s.polled scope).position ≠ .none :=
  fun h => hne (position_eq_none h).2

/-- The first poll takes in the newest events, -/
theorem Feed.first_poll (h : Feed scope s) (hc : s.current = .none) (hnew : New scope s e) :
    (e ∈ s.fetched scope ∨ Ahead scope (s.polled scope) e) ↔
      Window.rankFromTop RuntimeEvent.key (s.table.filter scope.holds) e < STREAM_BATCH_SIZE := by
  have hmem : e ∈ s.table.filter scope.holds := List.mem_filter.mpr ⟨hnew.committed, hnew.inScope⟩
  have hwindow : e ∈ s.fetched scope ↔
      Window.rankFromTop RuntimeEvent.key (s.table.filter scope.holds) e < STREAM_BATCH_SIZE := by
    rw [fetched_none hc, List.mem_reverse]
    exact Window.mem_largest_iff (h.keys _) hmem
  have hne : s.fetched scope ≠ [] := by
    rw [fetched_none hc, ne_eq, List.reverse_eq_nil_iff]
    exact Window.largest_ne_nil hmem (by decide)
  rw [← hwindow]
  constructor
  · intro hreached
    rcases hreached with hin | hahead
    · exact hin
    · by_contra hout
      cases hpos : (s.polled scope).position with
      | none => exact polled_position_ne hne hpos
      | some last =>
        have hin := polled_position hpos hne
        rw [fetched_none hc, List.mem_reverse] at hin hout
        have hlt := Window.lt_of_not_mem_largest (h.keys _) hmem hout hin
        exact absurd ((ahead_some hpos).mp hahead) (not_lt_of_gt hlt)
  · intro hin
    exact .inl hin

/-- and a later one the next events after the cursor. -/
theorem Feed.later_poll (h : Feed scope s) {cursor : RuntimeEvent} (hc : s.current = .some cursor)
    (hnew : New scope s e) :
    (e ∈ s.fetched scope ∨ Ahead scope (s.polled scope) e) ↔ cursor.key < e.key := by
  obtain ⟨-, -, habove⟩ := h.fetched
  constructor
  · intro hreached
    rcases hreached with hin | hahead
    · exact habove cursor hc e hin
    · cases hpos : (s.polled scope).position with
      | none =>
        have hnone : s.current = .none := (position_eq_none hpos).1
        rw [hc] at hnone
        cases hnone
      | some last =>
        refine lt_of_le_of_lt ?_ ((ahead_some hpos).mp hahead)
        rcases position_mem hpos with hcurrent | hin
        · have hsame : s.current = .some last := hcurrent
          rw [hc] at hsame
          rw [Option.some.inj hsame]
        · exact le_of_lt (habove cursor hc last hin)
  · intro hlt
    by_cases hin : e ∈ s.fetched scope
    · exact .inl hin
    refine .inr ?_
    have hmem : e ∈ s.table.filter fun event => scope.holds event &&
        decide (cursor.key < event.key) := by
      rw [List.mem_filter, Bool.and_eq_true, decide_eq_true_eq]
      exact ⟨hnew.committed, hnew.inScope, hlt⟩
    have hne : s.fetched scope ≠ [] := by
      rw [fetched_some hc]
      exact Window.smallest_ne_nil hmem (by decide)
    cases hpos : (s.polled scope).position with
    | none => exact absurd hpos (polled_position_ne hne)
    | some last =>
      have hlast := polled_position hpos hne
      rw [fetched_some hc] at hin hlast
      exact (ahead_some hpos).mpr (Window.lt_of_not_mem_smallest (h.keys _) hmem hin hlast)

/-- A poll reaches what was to be reached. -/
theorem Feed.poll_reached (h : Feed scope s) (hbatch : s.batch = []) (hnew : New scope s e) :
    Reached scope (s.polled scope) e ↔ Reached scope s e := by
  have hnot : e ∉ s.batch := by
    rw [hbatch]
    exact List.not_mem_nil
  have hposition := position_of_batch_nil hbatch
  have hpoll : (e ∈ s.fetched scope ∨ Ahead scope (s.polled scope) e) ↔ Ahead scope s e := by
    cases hc : s.current with
    | none => rw [h.first_poll hc hnew, ahead_none (hposition.trans hc)]
    | some cursor => rw [h.later_poll hc hnew, ahead_some (hposition.trans hc)]
  show (e ∈ s.delivered ∨ e ∈ s.fetched scope ∨ Ahead scope (s.polled scope) e) ↔ Reached scope s e
  rw [hpoll, Reached]
  simp only [hnot, false_or]

theorem send_reached {event : RuntimeEvent} {rest : List RuntimeEvent}
    (hbatch : s.batch = event :: rest) :
    Reached scope (s.sent event rest) e ↔ Reached scope s e := by
  have hahead : Ahead scope (s.sent event rest) e ↔ Ahead scope s e := by
    rw [Ahead, Ahead, position_send hbatch]
    rfl
  show (e ∈ s.delivered ++ [event] ∨ e ∈ rest ∨ Ahead scope (s.sent event rest) e) ↔
    Reached scope s e
  rw [hahead, Reached, hbatch, List.mem_append, List.mem_singleton, List.mem_cons]
  tauto

/-- A commit leaves an event behind that was behind. -/
theorem commit_reached {i : ℕ} {events : List RuntimeEvent}
    (hreached : Reached scope (s.grown i events) e) :
    Reached scope s e := by
  rcases hreached with hsent | hbatch | hahead
  · exact .inl hsent
  · exact .inr (.inl hbatch)
  · refine .inr (.inr ?_)
    cases hpos : s.position with
    | some last => exact (ahead_some hpos).mpr ((ahead_some (s := s.grown i events) hpos).mp hahead)
    | none =>
      refine (ahead_none hpos).mpr
        (lt_of_le_of_lt ?_ ((ahead_none (s := s.grown i events) hpos).mp hahead))
      show _ ≤ Window.rankFromTop RuntimeEvent.key ((s.table ++ events).filter scope.holds) e
      rw [Window.rankFromTop, Window.rankFromTop, List.filter_append, List.countP_append]
      exact Nat.le_add_right _ _

/-- **A lost event stays lost.** -/
theorem Lost.next (hfeed : Feed scope s) (hnext : Next scope s a t) (h : Lost scope s e) :
    Lost scope t e := by
  obtain ⟨hnew, hnot⟩ := h
  cases hnext with
  | quiet _ => exact ⟨⟨hnew.committed, hnew.inScope, hnew.late⟩, hnot⟩
  | commit hwriter hfresh =>
    exact ⟨⟨List.mem_append_left _ hnew.committed, hnew.inScope, hnew.late⟩, fun hreached =>
      hnot (commit_reached hreached)⟩
  | poll hbatch =>
    exact ⟨⟨hnew.committed, hnew.inScope, hnew.late⟩, fun hreached =>
      hnot ((hfeed.poll_reached hbatch hnew).mp hreached)⟩
  | send hbatch =>
    exact ⟨⟨hnew.committed, hnew.inScope, hnew.late⟩, fun hreached =>
      hnot ((send_reached hbatch).mp hreached)⟩

theorem timely_some {i : ℕ} {writer : Writer} {last : RuntimeEvent}
    (hwriter : s.writers i = .some writer) (hpos : s.position = .some last) :
    Timely scope s (.commit i) ↔ ∀ e ∈ writer.events, scope.holds e = true → last.key < e.key := by
  simp only [Timely, hwriter, hpos, Option.some.injEq, forall_eq']

theorem timely_none {i : ℕ} {writer : Writer} (hwriter : s.writers i = .some writer)
    (hpos : s.position = .none) :
    Timely scope s (.commit i) ↔ ∀ e, New scope (s.grown i writer.events) e → Ahead scope
      (s.grown i writer.events) e := by
  have hgrown : (s.grown i writer.events).position = .none := hpos
  simp only [Timely, hwriter, hpos, Option.some.injEq, forall_eq', ahead_none hgrown]
  constructor
  · intro h e hnew
    exact h e hnew.committed hnew.inScope hnew.late
  · intro h e hmem hscope hlate
    exact h e ⟨hmem, hscope, hlate⟩

/-- A timely step loses nothing. -/
theorem reached_next (hfeed : Feed scope s) (hnext : Next scope s a t) (htimely : Timely scope s a)
    (h : ∀ e, New scope s e → Reached scope s e) : ∀ e, New scope t e → Reached scope t e := by
  intro e hnew
  cases hnext with
  | quiet _ => exact h e ⟨hnew.committed, hnew.inScope, hnew.late⟩
  | @commit i writer hwriter hfresh =>
    cases hpos : s.position with
    | none => exact .inr (.inr ((timely_none hwriter hpos).mp htimely e hnew))
    | some last =>
      have hgrown : (s.grown i writer.events).position = .some last := hpos
      rcases List.mem_append.mp hnew.committed with hold | hmine
      · rcases h e ⟨hold, hnew.inScope, hnew.late⟩ with hsent | hbatch | hahead
        · exact .inl hsent
        · exact .inr (.inl hbatch)
        · exact .inr (.inr ((ahead_some hgrown).mpr ((ahead_some hpos).mp hahead)))
      · exact .inr (.inr
          ((ahead_some hgrown).mpr ((timely_some hwriter hpos).mp htimely e hmine hnew.inScope)))
  | poll hbatch =>
    have hold : New scope s e := ⟨hnew.committed, hnew.inScope, hnew.late⟩
    exact (hfeed.poll_reached hbatch hold).mpr (h e hold)
  | send hbatch =>
    have hold : New scope s e := ⟨hnew.committed, hnew.inScope, hnew.late⟩
    exact (send_reached hbatch).mpr (h e hold)

/-- A step that is not timely loses an event. -/
theorem lost_of_untimely (hfeed : Feed scope s) (hnext : Next scope s a t)
    (huntimely : ¬ Timely scope s a) :
    ∃ e, Lost scope t e := by
  cases hnext with
  | quiet ha =>
    cases a with
    | commit i => exact absurd rfl (ha i)
    | _ => exact absurd trivial huntimely
  | poll _ => exact absurd trivial huntimely
  | send _ => exact absurd trivial huntimely
  | @commit i writer hwriter hfresh =>
    cases hpos : s.position with
    | some last =>
      have hgrown : (s.grown i writer.events).position = .some last := hpos
      rw [timely_some hwriter hpos] at huntimely
      push Not at huntimely
      obtain ⟨e, hmem, hscope, hle⟩ := huntimely
      have hnotTable : e ∉ s.table := fun hin => hfresh e hmem e hin rfl
      have hunread : e ∉ s.delivered ++ s.batch := fun hin => hnotTable (hfeed.visible e hin).1
      rw [List.mem_append, not_or] at hunread
      refine ⟨e, ⟨List.mem_append_right _ hmem, hscope, fun hin => hnotTable (hfeed.before e hin)⟩,
        ?_⟩
      intro hreached
      rcases hreached with hsent | hbatch | hahead
      · exact hunread.1 hsent
      · exact hunread.2 hbatch
      · exact absurd ((ahead_some hgrown).mp hahead) (not_lt_of_ge hle)
    | none =>
      rw [timely_none hwriter hpos] at huntimely
      push Not at huntimely
      obtain ⟨e, hnew, hnot⟩ := huntimely
      obtain ⟨hcurrent, hbatch⟩ := position_eq_none hpos
      refine ⟨e, hnew, ?_⟩
      intro hreached
      rcases hreached with hsent | hin | hahead
      · have hsent' : e ∈ s.delivered := hsent
        rw [hfeed.unread hcurrent] at hsent'
        exact List.not_mem_nil hsent'
      · have hin' : e ∈ s.batch := hin
        rw [hbatch] at hin'
        exact List.not_mem_nil hin'
      · exact hnot hahead

/-! ## The stream on its own -/

theorem turn_polls (h : s.batch = []) : turn scope s = s.polled scope := by
  rw [turn, h]
  rfl

theorem turn_sends {event : RuntimeEvent} {rest : List RuntimeEvent} (h : s.batch = event :: rest) :
    turn scope s = s.sent event rest := by
  rw [turn, h]
  rfl

/-- A turn is a step of the stream. -/
theorem turn_next (scope : Scope) (s : State) : ∃ a, (∀ i, a ≠ .commit i) ∧ Next scope s a
    (turn scope s) := by
  cases h : s.batch with
  | nil =>
    rw [turn_polls h]
    exact ⟨.poll, nofun, .poll h⟩
  | cons event rest =>
    rw [turn_sends h]
    exact ⟨.send, nofun, .send h⟩

/-- A turn touches neither the table nor what was committed before. -/
theorem turn_new : New scope (turn scope s) e ↔ New scope s e := by
  have htable : (turn scope s).table = s.table ∧ (turn scope s).before = s.before := by
    unfold turn
    split <;> exact ⟨rfl, rfl⟩
  constructor
  · intro h
    exact ⟨htable.1 ▸ h.committed, h.inScope, htable.2 ▸ h.late⟩
  · intro h
    exact ⟨htable.1.symm ▸ h.committed, h.inScope, htable.2.symm ▸ h.late⟩

/-- What holds of the stream whatever else happens: its invariant, and ids for the writers. -/
def Sound (scope : Scope) (s : State) : Prop := Feed scope s ∧ WriterIds s

theorem Sound.turn (h : Sound scope s) : Sound scope (turn scope s) := by
  obtain ⟨a, -, hnext⟩ := turn_next scope s
  refine ⟨h.1.next h.2 hnext, ?_⟩
  have hwriters : (RuntimeEvents.turn scope s).writers = s.writers := by
    unfold RuntimeEvents.turn
    split <;> rfl
  intro i writer hwriter
  exact h.2 i writer (hwriters ▸ hwriter)

theorem Sound.turns (h : Sound scope s) (n : ℕ) : Sound scope
    ((RuntimeEvents.turn scope)^[n] s) := by
  induction n generalizing s with
  | zero => exact h
  | succ n ih => exact ih h.turn

theorem delivered_turn (h : e ∈ s.delivered) : e ∈ (turn scope s).delivered := by
  unfold turn
  split
  · exact h
  · exact List.mem_append_left _ h

theorem delivered_turns (h : e ∈ s.delivered) (n : ℕ) : e ∈ ((turn scope)^[n] s).delivered := by
  induction n generalizing s with
  | zero => exact h
  | succ n ih => exact ih (delivered_turn h)

theorem Feed.count_delivered (hfeed : Feed scope s) (h : e ∈ s.delivered) :
    s.delivered.count e = 1 := by
  have hordered := (List.pairwise_append.mp hfeed.sorted).1
  have hnodup : s.delivered.Nodup := by
    refine hordered.imp fun {x y} hlt heq => ?_
    rw [heq] at hlt
    exact lt_irrefl _ hlt
  exact List.count_eq_one_of_mem hnodup h

theorem Lost.turns (hsound : Sound scope s) (h : Lost scope s e) (n : ℕ) : Lost scope
    ((turn scope)^[n] s) e := by
  induction n generalizing s with
  | zero => exact h
  | succ n ih =>
    obtain ⟨a, -, hnext⟩ := turn_next scope s
    exact ih hsound.turn (h.next hsound.1 hnext)

/-- The events of the scope beyond the cursor. -/
def beyond (scope : Scope) (s : State) (x : RuntimeEvent) : Bool :=
  scope.holds x && s.current.all fun cursor => decide (cursor.key < x.key)

/-- How many turns are left at most. -/
def remaining (scope : Scope) (s : State) : ℕ :=
  2 * s.table.countP (beyond scope s) + if s.batch.isEmpty then 1 else 0

/-- While an event is to be delivered, a turn brings the stream on. -/
theorem remaining_turn (hfeed : Feed scope s) (hnew : New scope s e) (hreached : Reached scope s e)
    (hnot : e ∉ s.delivered) :
    remaining scope (turn scope s) < remaining scope s := by
  cases hbatch : s.batch with
  | nil =>
    have hin := (hfeed.poll_reached hbatch hnew).mpr hreached
    have hne : s.fetched scope ≠ [] := by
      intro hnil
      have hahead : Ahead scope s e := by
        rcases hreached with h | h | h
        · exact absurd h hnot
        · rw [hbatch] at h
          exact absurd h List.not_mem_nil
        · exact h
      have hposition := position_of_batch_nil hbatch
      cases hc : s.current with
      | none =>
        rw [fetched_none hc, List.reverse_eq_nil_iff] at hnil
        exact Window.largest_ne_nil (List.mem_filter.mpr ⟨hnew.committed, hnew.inScope⟩) (by decide)
          hnil
      | some cursor =>
        have hlt := (ahead_some (hposition.trans hc)).mp hahead
        rw [fetched_some hc] at hnil
        refine Window.smallest_ne_nil (x := e) ?_ (by decide) hnil
        rw [List.mem_filter, Bool.and_eq_true, decide_eq_true_eq]
        exact ⟨hnew.committed, hnew.inScope, hlt⟩
    rw [turn_polls hbatch]
    have hempty : (s.polled scope).batch.isEmpty = false := by
      cases hf : s.fetched scope with
      | nil => exact absurd hf hne
      | cons x rest => simp [State.polled, hf]
    have hcount : (s.polled scope).table.countP (beyond scope (s.polled scope)) =
      s.table.countP (beyond scope s) := rfl
    simp only [remaining, hempty, hcount, hbatch, List.isEmpty_nil]
    simp
  | cons event rest =>
    have hevent : event ∈ s.batch := by
      rw [hbatch]
      exact List.mem_cons_self
    have hvisible := hfeed.visible event (List.mem_append_right _ hevent)
    rw [turn_sends hbatch]
    have hlt : s.table.countP (beyond scope (s.sent event rest)) <
        s.table.countP (beyond scope s) := by
      refine Window.countP_lt_countP (x := event) ?_ hvisible.1 ?_ ?_
      · intro x _ hx
        simp only [beyond, State.sent, Option.all_some, Bool.and_eq_true, decide_eq_true_eq] at hx ⊢
        refine ⟨hx.1, ?_⟩
        cases hc : s.current with
        | none => rfl
        | some cursor => exact decide_eq_true (lt_trans (hfeed.above cursor hc event hevent) hx.2)
      · simp [beyond, State.sent]
      · rw [beyond, hvisible.2, Bool.true_and]
        cases hc : s.current with
        | none => rfl
        | some cursor => exact decide_eq_true (hfeed.above cursor hc event hevent)
    have hcount : (s.sent event rest).table = s.table := rfl
    simp only [remaining, hcount, hbatch, List.isEmpty_cons]
    split <;> simp <;> omega

/-- **A reached event is delivered** by some number of turns. -/
theorem delivered_of_reached (hsound : Sound scope s) (hnew : New scope s e)
    (hreached : Reached scope s e) :
    ∃ n, e ∈ ((turn scope)^[n] s).delivered := by
  induction hm : remaining scope s using Nat.strong_induction_on generalizing s with
  | _ m ih =>
    by_cases hsent : e ∈ s.delivered
    · exact ⟨0, hsent⟩
    obtain ⟨a, ha, hnext⟩ := turn_next scope s
    have hlt := remaining_turn hsound.1 hnew hreached hsent
    have hstill : Reached scope (turn scope s) e := by
      by_contra hlost
      cases hbatch : s.batch with
      | nil =>
        rw [turn_polls hbatch] at hlost
        exact hlost ((hsound.1.poll_reached hbatch hnew).mpr hreached)
      | cons event rest =>
        rw [turn_sends hbatch] at hlost
        exact hlost ((send_reached hbatch).mpr hreached)
    obtain ⟨n, hn⟩ := ih _ (hm ▸ hlt) hsound.turn (turn_new.mpr hnew) hstill rfl
    exact ⟨n + 1, hn⟩

/-- A state is complete exactly when it has lost no event. -/
theorem complete_iff (hsound : Sound scope s) : Complete scope s ↔ ∀ e, New scope s e →
    Reached scope s e := by
  constructor
  · intro h e hnew
    by_contra hnot
    obtain ⟨n, hn⟩ := h.delivered e hnew
    have hlost := Lost.turns hsound ⟨hnew, hnot⟩ n
    have hmem : e ∈ ((turn scope)^[n] s).delivered := by
      rw [← List.count_pos_iff, hn n (Nat.le_refl n)]
      exact Nat.one_pos
    exact hlost.2 (.inl hmem)
  · intro h
    refine ⟨(List.pairwise_append.mp hsound.1.sorted).1, ?_, ?_⟩
    · intro e hnew hnot x hx
      rcases h e hnew with hsent | hbatch | hahead
      · exact absurd hsent hnot
      · exact (List.pairwise_append.mp hsound.1.sorted).2.2 x hx e hbatch
      · cases hpos : s.position with
        | none =>
          rw [hsound.1.unread (position_eq_none hpos).1] at hx
          exact absurd hx List.not_mem_nil
        | some last =>
          exact lt_of_le_of_lt (hsound.1.delivered_le hpos hx) ((ahead_some hpos).mp hahead)
    · intro e hnew
      obtain ⟨n, hn⟩ := delivered_of_reached hsound hnew (h e hnew)
      refine ⟨n, fun m hm => ?_⟩
      obtain ⟨k, hk⟩ := Nat.exists_eq_add_of_le hm
      rw [hk, Nat.add_comm, Function.iterate_add_apply]
      exact ((hsound.turns n).turns k).1.count_delivered (delivered_turns hn k)

/-! ## Runs -/

theorem Subscribed.sound (h : Subscribed scope s) : Sound scope s :=
  ⟨h.feed, fun i writer hwriter => (h.writers i writer hwriter).1⟩

theorem Sound.step (h : Sound scope s) (hstep : step scope s a = .some t) : Sound scope t :=
  ⟨h.1.next h.2 (step_next hstep), h.2.step hstep⟩

theorem Sound.exec {labels : List Label} (h : Sound scope s)
    (hexec : (system scope).exec s labels = .some t) :
    Sound scope t :=
  System.Run.invariant (fun _ _ _ hs _ hstep => Sound.step hs hstep) (System.exec_run hexec) h

/-- A lost event is lost at the end of every run. -/
theorem Lost.exec : ∀ {labels : List Label} {s : State}, Sound scope s → Lost scope s e →
    (system scope).exec s labels = .some t → Lost scope t e
  | [], s, _, h, hexec => by
    cases hexec
    exact h
  | a :: labels, s, hsound, h, hexec => by
    rw [System.exec] at hexec
    split at hexec
    next u hstep => exact Lost.exec (hsound.step hstep) (h.next hsound.1 (step_next hstep)) hexec
    next => cases hexec

/-- Over a run from a state that has lost nothing, nothing is lost exactly when the steps are
timely. -/
theorem exec_reached_iff : ∀ {labels : List Label} {s : State}, Sound scope s →
    (∀ e, New scope s e → Reached scope s e) →
    (system scope).exec s labels = .some t →
      ((∀ e, New scope t e → Reached scope t e) ↔ (system scope).Guarded (Timely scope) s labels)
  | [], s, _, h, hexec => by
    cases hexec
    exact ⟨fun _ => trivial, fun _ => h⟩
  | a :: labels, s, hsound, h, hexec => by
    rw [System.exec] at hexec
    split at hexec
    next u hstep =>
      have hnext := step_next hstep
      rw [System.Guarded, hstep]
      by_cases htimely : Timely scope s a
      · rw [exec_reached_iff (hsound.step hstep) (reached_next hsound.1 hnext htimely h) hexec]
        exact ⟨fun hrest => ⟨htimely, hrest⟩, fun hboth => hboth.2⟩
      · obtain ⟨e, hlost⟩ := lost_of_untimely hsound.1 hnext htimely
        obtain ⟨hnew, hnot⟩ := Lost.exec (hsound.step hstep) hlost hexec
        exact ⟨fun hall => absurd (hall e hnew) hnot, fun hboth => absurd hboth.1 htimely⟩
    next => cases hexec

/-- **When the stream is complete**: after any run from a new subscription, exactly when
every commit of the run was timely. -/
theorem stream_complete_iff {start : State} {labels : List Label} (hstart : Subscribed scope start)
    (hexec : (system scope).exec start labels = .some t) :
    Complete scope t ↔ (system scope).Guarded (Timely scope) start labels := by
  have hsound := hstart.sound
  have hnone : ∀ e, New scope start e → Reached scope start e := by
    intro e hnew
    have hlate := hnew.late
    rw [hstart.before] at hlate
    exact absurd hnew.committed hlate
  rw [complete_iff (hsound.exec hexec)]
  exact exec_reached_iff hsound hnone hexec

/-- A workspace without events, and a subscriber of it. -/
def quietScope : Scope := ⟨1, 1⟩

def quietStart : State where
  now := 0
  writers := fun _ => .none
  table := []
  before := []
  current := .none
  batch := []
  delivered := []

theorem quietStart_subscribed : Subscribed quietScope quietStart where
  ids := List.nodup_nil
  writers := nofun
  before := rfl
  cursor := nofun
  batch := rfl
  delivered := rfl

/-- The second of two transactions commits first and is sent; then the first commits. -/
def slowWriter : List Label :=
  [.begin 0, .tick, .begin 1, .append 1 2 1 1, .commit 1, .poll, .send, .append 0 1 1 1, .commit 0]

/-- The event of the slow writer, with the earlier start, is behind the cursor and never sent. -/
theorem stream_loses_slow_writer :
    ∃ t, (system quietScope).exec quietStart slowWriter = .some t ∧ ¬ Complete quietScope t := by
  refine ⟨_, rfl, ?_⟩
  intro hcomplete
  have hsound :=
    quietStart_subscribed.sound.exec (show (system quietScope).exec quietStart slowWriter =
    .some _ from rfl)
  have hreached :=
    (complete_iff hsound).mp hcomplete ⟨1, 1, 1, 0⟩ ⟨List.mem_cons_of_mem _ List.mem_cons_self, rfl,
    nofun⟩
  rcases hreached with hsent | hbatch | hahead
  · have hmem : (⟨1, 1, 1, 0⟩ : RuntimeEvent) ∈ [(⟨2, 1, 1, 1⟩ : RuntimeEvent)] := hsent
    revert hmem
    decide
  · exact List.not_mem_nil hbatch
  · have hlt : RuntimeEvent.key ⟨2, 1, 1, 1⟩ < RuntimeEvent.key ⟨1, 1, 1, 0⟩ := hahead
    revert hlt
    decide

/-- One event, committed before the poll. -/
def promptWriter : List Label := [.begin 0, .append 0 1 1 1, .commit 0, .poll, .send]

theorem stream_complete_prompt :
    ∃ t, (system quietScope).exec quietStart promptWriter = .some t ∧ Complete quietScope t := by
  have htimely : (system quietScope).Guarded (Timely quietScope) quietStart promptWriter := by
    refine ⟨trivial, trivial, ?_, trivial, trivial, trivial⟩
    intro writer hwriter
    cases hwriter
    intro e hmem _ _
    rw [List.mem_singleton.mp hmem]
    decide
  exact ⟨_, rfl, (stream_complete_iff quietStart_subscribed
    (show (system quietScope).exec quietStart promptWriter = .some _ from rfl)).mpr htimely⟩

end Novalton.RuntimeEvents
