import Mathlib.Algebra.GroupWithZero.Nat
import ZkRess.Foundation.RoundRobin
import ZkRess.Network.Manager

/-!
# Routing requests to connections

Whatever arrives and whichever connections go away while the manager polls, no request is
lost or sent twice, no open connection is dropped, and a poll ends.

A poll moves a request that waits out of its queue, perhaps only to put it back when the
last connection turns out to be closed; so neither queue gets shorter all the time.  What
does get smaller with every step is `Network.measure`: each connection pays for one failed
send, and a request in hand counts as one that waits.

While the connections stay the same they are served by turns (`Turning`).
-/

namespace ZkRess

open Foundation

variable {R : Type}

/-- The connection an event establishes. -/
def ProtocolEvent.connection : ProtocolEvent → List ConnectionHandle
  | .established peerId toConnection => [⟨peerId, toConnection⟩]
  | .other => []

namespace Network

namespace Action

/-- The request that arrives. -/
def requested : Action R → List R
  | .peerRequest request => [request]
  | _ => []

/-- The connection that is announced. -/
def announced : Action R → List ConnectionHandle
  | .protocolEvent event => event.connection
  | _ => []

/-- A step of a poll. -/
def isAdvance : Action R → Bool
  | .advance => true
  | _ => false

/-- How many steps of polls an action leads to at most. -/
def allowance : Action R → ℕ
  | .poll => 4
  | .protocolEvent _ => 4
  | .peerRequest _ => 5
  | .advance | .close _ => 0

end Action

/-- **What the manager keeps** through these actions. -/
structure RoutesRequests (actions : List (Action R)) (network : Network R) : Prop where
  /-- The requests taken from the stream are those that arrived, in order. -/
  requests : network.received ++ network.manager.peerRequests = actions.flatMap Action.requested
  /-- So are the connections. -/
  connections :
    network.established ++ network.manager.protocolEvents.flatMap ProtocolEvent.connection
    = actions.flatMap Action.announced
  /-- Each request taken was handed to one connection, or waits, or is being passed on. -/
  conserved : network.received.Perm
    (network.handed.map Prod.fst ++ network.manager.pendingRequests ++ network.pollState.inHand)
  /-- A request is handed to a connection that is open. -/
  open_at_send : ∀ action later, network.next action = some later →
    later.handed = network.handed ∨ ∃ request connection,
      later.handed = network.handed ++ [(request, connection)] ∧
        connection.toConnection ∉ network.closed
  /-- Each connection taken is in the rotation, unless a send to it failed. -/
  rotation : network.established.Perm
    (network.manager.connections ++ network.failed.map Prod.snd)
  /-- A send fails only if the connection is closed. -/
  failures : ∀ attempt ∈ network.failed, attempt.2.toConnection ∈ network.closed
  /-- When a poll has returned, no request waits that could be sent. -/
  settled : network.pollState = .pending → network.Idle
  /-- Finitely many polls, events and requests are finitely many steps. -/
  bounded : actions.countP Action.isAdvance ≤ (actions.map Action.allowance).sum
  /-- If nothing more arrives, the poll returns. -/
  returns : ∃ rounds later, network.run (List.replicate rounds .advance) = some later ∧
    later.pollState = .pending
  /-- While no connection is added and none of those in the rotation is closed, any
  consecutive sends, as many as there are connections, go to each of them once. -/
  fair : ∀ more later, network.run more = some later → later.established = network.established →
    (∀ connection ∈ network.manager.connections, connection.toConnection ∉ later.closed) →
      ∃ sent, later.handed = network.handed ++ sent ∧
        InTurn network.manager.connections (sent.map Prod.snd)

variable {network middle later : Network R} {action : Action R} {actions : List (Action R)}

/-! ## Conservation -/

/-- The requests taken are handed over, waiting or in hand. -/
def Conserved (network : Network R) : Prop :=
  network.received.Perm
    (network.handed.map Prod.fst ++ network.manager.pendingRequests ++ network.pollState.inHand)

/-- The connections taken are in the rotation, or a send to them failed. -/
def Rotates (network : Network R) : Prop :=
  network.established.Perm (network.manager.connections ++ network.failed.map Prod.snd)

theorem Conserved.moves (hmoves : Moves network action later) (h : network.Conserved) :
    later.Conserved := by
  unfold Conserved at h ⊢
  match hmoves with
  | .woken state | .joined state _ _ | .skipped state _ _ | .quiet state _ _ | .returned state _ =>
      simpa [state, PollState.inHand] using h
  | .announced _ | .requested _ | .closes _ => exact h
  | .fails passing _ _ => simpa [passing] using h
  | .replayed looping _ waiting =>
      simp only [looping, waiting, PollState.inHand, List.append_nil, List.append_assoc] at h ⊢
      exact h.trans ((List.perm_append_singleton _ _).symm.append_left _)
  | .received polling _ =>
      simp only [polling, PollState.inHand, List.append_nil] at h ⊢
      exact h.append_right _
  | .waits passing _ =>
      simpa [passing, PollState.inHand] using h
  | .hands passing _ _ =>
      simp only [passing, PollState.inHand, List.append_nil, List.map_append, List.map_singleton,
        List.append_assoc] at h ⊢
      exact h.trans (List.perm_append_comm.append_left _)

theorem Rotates.moves (hmoves : Moves network action later) (h : network.Rotates) :
    later.Rotates := by
  unfold Rotates at h ⊢
  match hmoves with
  | .woken _ | .replayed _ _ _ | .skipped _ _ _ | .quiet _ _ _ | .received _ _ | .returned _ _
  | .waits _ _ | .announced _ | .requested _ | .closes _ => exact h
  | .joined _ _ _ =>
      rw [List.append_assoc]
      refine (h.append_right _).trans ?_
      rw [List.append_assoc]
      exact List.perm_append_comm.append_left _
  | .fails _ connected _ =>
      rw [connected, List.cons_append] at h
      rw [List.map_append, ← List.append_assoc]
      exact h.trans (List.perm_append_singleton _ _).symm
  | .hands _ connected _ =>
      rw [connected] at h
      exact h.trans ((List.perm_append_singleton _ _).symm.append_right _)

/-! ## Sends -/

/-- A failed send finds its connection closed, and closed it stays. -/
theorem Moves.failures (hmoves : Moves network action later)
    (h : ∀ attempt ∈ network.failed, attempt.2.toConnection ∈ network.closed) :
    ∀ attempt ∈ later.failed, attempt.2.toConnection ∈ later.closed := by
  match hmoves with
  | .woken _ | .replayed _ _ _ | .joined _ _ _ | .skipped _ _ _ | .quiet _ _ _ | .received _ _
  | .returned _ _ | .waits _ _ | .hands _ _ _ | .announced _ | .requested _ => exact h
  | .closes toConnection => exact fun attempt hmem => List.mem_cons_of_mem _ (h attempt hmem)
  | .fails _ _ gone =>
      intro attempt hmem
      rcases List.mem_append.mp hmem with hmem | hmem
      · exact h attempt hmem
      · rwa [List.mem_singleton.mp hmem]

/-- A successful send finds it open. -/
theorem Moves.handed (hmoves : Moves network action later) :
    later.handed = network.handed ∨ ∃ request connection,
      later.handed = network.handed ++ [(request, connection)] ∧
        connection.toConnection ∉ network.closed := by
  match hmoves with
  | .woken _ | .replayed _ _ _ | .joined _ _ _ | .skipped _ _ _ | .quiet _ _ _ | .received _ _
  | .returned _ _ | .waits _ _ | .fails _ _ _ | .announced _ | .requested _ | .closes _ =>
      exact .inl rfl
  | .hands _ _ there => exact .inr ⟨_, _, rfl, there⟩

/-- After the loop of `poll` found the manager idle, only `on_peer_request` can change that. -/
def Settled (network : Network R) : Prop :=
  network.pollState = .pending ∨ network.pollState = .pollingRequests → network.Idle

theorem Settled.moves (hmoves : Moves network action later) (h : network.Settled) :
    later.Settled := by
  unfold Settled at h ⊢
  match hmoves with
  | .woken _ | .replayed _ _ _ | .joined _ _ _ | .received _ _ | .waits _ _ | .fails _ _ _
  | .hands _ _ _ => simp
  | .skipped _ idle _ | .quiet _ idle _ => exact fun _ => idle
  | .returned polling _ => exact fun _ => h (.inr polling)
  | .announced _ | .requested _ | .closes _ => exact h

/-! ## Arrivals -/

/-- What the streams brought, and still hold, grows by what arrives. -/
theorem Moves.arrivals (hmoves : Moves network action later) :
    later.received ++ later.manager.peerRequests
        = network.received ++ network.manager.peerRequests ++ action.requested ∧
      later.established ++ later.manager.protocolEvents.flatMap ProtocolEvent.connection
        = network.established ++ network.manager.protocolEvents.flatMap ProtocolEvent.connection
          ++ action.announced := by
  match hmoves with
  | .woken _ | .replayed _ _ _ | .quiet _ _ _ | .returned _ _ | .waits _ _ | .fails _ _ _
  | .hands _ _ _ | .closes _ => simp [Action.requested, Action.announced]
  | .joined _ _ read | .skipped _ _ read =>
      simp [read, Action.requested, Action.announced, ProtocolEvent.connection]
  | .received _ read => simp [read, Action.requested, Action.announced]
  | .announced _ | .requested _ => simp [Action.requested, Action.announced]

theorem run_arrivals (hrun : network.run actions = some later) :
    later.received ++ later.manager.peerRequests
        = network.received ++ network.manager.peerRequests ++ actions.flatMap Action.requested ∧
      later.established ++ later.manager.protocolEvents.flatMap ProtocolEvent.connection
        = network.established ++ network.manager.protocolEvents.flatMap ProtocolEvent.connection
          ++ actions.flatMap Action.announced := by
  induction actions generalizing network with
  | nil =>
      cases hrun
      simp
  | cons action actions ih =>
      obtain ⟨middle, hnext, hrest⟩ := Option.bind_eq_some_iff.mp hrun
      obtain ⟨hrequests, hconnections⟩ := (next_moves hnext).arrivals
      obtain ⟨hrequests', hconnections'⟩ := ih hrest
      rw [hrequests', hconnections', hrequests, hconnections]
      simp

/-! ## The end of a poll -/

/-- What is left to do in a poll where nothing more is read. -/
def stage (network : Network R) : ℕ :=
  match network.pollState with
  | .pending => 0
  | .pollingRequests => 1
  | .onPeerRequest _ => 3
  | .looping =>
      match network.manager.connections, network.manager.pendingRequests with
      | _ :: _, _ :: _ => 4
      | _, _ => 2

/-- **What falls with every step of a poll.** -/
def measure (network : Network R) : ℕ :=
  4 * network.manager.protocolEvents.length + 5 * network.manager.peerRequests.length
    + network.manager.connections.length
    + 2 * (network.manager.pendingRequests.length + network.pollState.inHand.length)
    + network.stage

theorem stage_le (network : Network R) : network.stage ≤ 4 := by
  unfold stage
  split <;> try omega
  split <;> omega

theorem stage_of_idle (hlooping : network.pollState = .looping) (hidle : network.Idle) :
    network.stage = 2 := by
  unfold stage
  rw [hlooping]
  rcases hidle with hnone | hnone <;> rw [hnone]
  cases network.manager.connections <;> rfl

/-- **A step** is paid for by the measure, and the measure by what happens outside. -/
theorem Moves.measure_le (hmoves : Moves network action later) :
    (if action.isAdvance then 1 else 0) + later.measure ≤ network.measure + action.allowance := by
  have hlater := stage_le later
  unfold measure
  match hmoves with
  | .woken pending =>
      simp [pending, Action.isAdvance, Action.allowance, PollState.inHand] at hlater ⊢
      omega
  | .replayed looping connected waiting =>
      simp [stage, looping, connected, waiting, Action.isAdvance, Action.allowance,
        PollState.inHand]
      omega
  | .joined looping idle read =>
      simp [stage_of_idle looping idle, looping, read, Action.isAdvance, Action.allowance,
        PollState.inHand] at hlater ⊢
      omega
  | .skipped looping idle read | .quiet looping idle read =>
      rw [stage_of_idle looping idle]
      simp [stage, looping, read, Action.isAdvance, Action.allowance, PollState.inHand]
      omega
  | .received polling read | .returned polling read =>
      simp [stage, polling, read, Action.isAdvance, Action.allowance, PollState.inHand]
      omega
  | .waits passing connections | .fails passing connections _ =>
      simp [stage, passing, connections, Action.isAdvance, Action.allowance, PollState.inHand]
      omega
  | .hands passing connected _ =>
      have hstage : network.stage = 3 := by simp [stage, passing]
      simp [hstage, passing, connected, Action.isAdvance, Action.allowance, PollState.inHand]
        at hlater ⊢
      omega
  | .announced event | .requested request =>
      simp [stage, Action.isAdvance, Action.allowance]
      omega
  | .closes _ => exact Nat.le_of_eq (Nat.zero_add _)

/-- **A run has no more steps** than the measure and what happens outside allow. -/
theorem run_bounded (hrun : network.run actions = some later) :
    actions.countP Action.isAdvance + later.measure
      ≤ network.measure + (actions.map Action.allowance).sum := by
  induction actions generalizing network with
  | nil =>
      cases hrun
      simp
  | cons action actions ih =>
      obtain ⟨middle, hnext, hrest⟩ := Option.bind_eq_some_iff.mp hrun
      have hstep := (next_moves hnext).measure_le
      have hafter := ih hrest
      rw [List.countP_cons, List.map_cons, List.sum_cons]
      omega

/-- **A poll returns** if nothing more happens outside. -/
theorem exists_return (network : Network R) :
    ∃ rounds later, network.run (List.replicate rounds .advance) = some later ∧
      later.pollState = .pending := by
  induction hmeasure : network.measure using Nat.strongRecOn generalizing network with
  | ind n ih =>
      rcases advance_moves network with hpending | ⟨middle, hadvance, hmoves⟩
      · exact ⟨0, network, rfl, hpending⟩
      · have hless := hmoves.measure_le
        simp only [Action.isAdvance, Action.allowance, if_true] at hless
        obtain ⟨rounds, later, hrun, hpending⟩ := ih middle.measure (by omega) middle rfl
        refine ⟨rounds + 1, later, ?_, hpending⟩
        rw [List.replicate_succ, run, next, hadvance]
        exact hrun

/-! ## Turns -/

/-- Connections taken and channels closed stay so. -/
theorem Moves.grows (hmoves : Moves network action later) :
    network.established <+: later.established ∧ network.closed ⊆ later.closed := by
  match hmoves with
  | .woken _ | .replayed _ _ _ | .skipped _ _ _ | .quiet _ _ _ | .received _ _ | .returned _ _
  | .waits _ _ | .fails _ _ _ | .hands _ _ _ | .announced _ | .requested _ =>
      exact ⟨List.prefix_refl _, List.Subset.refl _⟩
  | .joined _ _ _ => exact ⟨List.prefix_append _ _, List.Subset.refl _⟩
  | .closes _ => exact ⟨List.prefix_refl _, List.subset_cons_self _ _⟩

theorem run_grows (hrun : network.run actions = some later) :
    network.established <+: later.established ∧ network.closed ⊆ later.closed :=
  run_preserves (fun later =>
      network.established <+: later.established ∧ network.closed ⊆ later.closed)
    (fun hmoves h => ⟨h.1.trans hmoves.grows.1, List.Subset.trans h.2 hmoves.grows.2⟩) hrun
    ⟨List.prefix_refl _, List.Subset.refl _⟩

/-- **The connections of an earlier state are served by turns.** -/
structure Turning (start network : Network R) : Prop where
  members : network.manager.connections.Perm start.manager.connections
  turns : ∃ sent, network.handed = start.handed ++ sent ∧
    InTurn start.manager.connections (sent.map Prod.snd ++ network.manager.connections)

variable {start : Network R}

theorem Turning.refl (start : Network R) : Turning start start where
  members := .refl _
  turns := ⟨[], (List.append_nil _).symm, .of_perm (.refl _)⟩

theorem Turning.moves (hmoves : Moves network action later)
    (hsame : later.established = network.established)
    (hopen : ∀ connection ∈ start.manager.connections, connection.toConnection ∉ network.closed)
    (h : Turning start network) : Turning start later := by
  match hmoves with
  | .woken _ | .replayed _ _ _ | .skipped _ _ _ | .quiet _ _ _ | .received _ _ | .returned _ _
  | .waits _ _ | .announced _ | .requested _ | .closes _ => exact ⟨h.members, h.turns⟩
  | .joined _ _ _ => simp at hsame
  | .fails _ connected gone =>
      refine absurd gone (hopen _ (h.members.mem_iff.mp ?_))
      rw [connected]
      exact List.mem_cons_self
  | @Moves.hands _ _ request connection _ _ connected _ =>
      obtain ⟨hmembers, sent, hsent, hturn⟩ := h
      rw [connected] at hmembers hturn
      refine ⟨(List.perm_append_singleton _ _).trans hmembers, sent ++ [(request, connection)],
        ?_, ?_⟩
      · show network.handed ++ [(request, connection)] = _
        rw [hsent, List.append_assoc]
      · rw [List.map_append]
        exact hturn.serve hmembers

theorem Turning.run (hrun : network.run actions = some later)
    (hsame : later.established = network.established)
    (hopen : ∀ connection ∈ start.manager.connections, connection.toConnection ∉ later.closed)
    (h : Turning start network) : Turning start later := by
  induction actions generalizing network with
  | nil =>
      cases hrun
      exact h
  | cons action actions ih =>
      obtain ⟨middle, hnext, hrest⟩ := Option.bind_eq_some_iff.mp hrun
      have hmoves := next_moves hnext
      obtain ⟨hgrown, hclosed⟩ := hmoves.grows
      obtain ⟨hgrown', hclosed'⟩ := run_grows hrest
      -- nothing was taken in between
      have hmiddle : middle.established = network.established :=
        (hgrown.eq_of_length_le (hsame ▸ hgrown'.length_le)).symm
      exact ih hrest (hsame.trans hmiddle.symm) (h.moves hmoves hmiddle fun connection hmem hgone =>
        hopen connection hmem (hclosed' (hclosed hgone)))

end Network

/-- **Peer requests are conserved and routed fairly**, in every run of the manager. -/
theorem Network.routesRequests (actions : List (Network.Action R)) (network : Network R)
    (hrun : (Network.new : Network R).run actions = some network) :
    Network.RoutesRequests actions network where
  requests := by simpa [new, RessNetworkManager.new] using (run_arrivals hrun).1
  connections := by simpa [new, RessNetworkManager.new] using (run_arrivals hrun).2
  conserved := run_preserves Conserved Conserved.moves hrun (.refl _)
  open_at_send _ _ hnext := (next_moves hnext).handed
  rotation := run_preserves Rotates Rotates.moves hrun (.refl _)
  failures := run_preserves (fun network =>
      ∀ attempt ∈ network.failed, attempt.2.toConnection ∈ network.closed)
    Moves.failures hrun (by simp [new])
  settled hpending := run_preserves Settled Settled.moves hrun (fun _ => .inl rfl) (.inl hpending)
  bounded := by
    have hbound := run_bounded hrun
    have hnew : (new : Network R).measure = 0 := rfl
    omega
  returns := exists_return network
  fair more later hmore hsame hopen := by
    obtain ⟨-, sent, hsent, hturn⟩ := (Turning.refl network).run hmore hsame hopen
    exact ⟨sent, hsent, hturn.of_infix (List.prefix_append _ _).isInfix⟩

namespace Network

/-- A request arrives before any connection.  The first connection is closed by the time it
is tried, and the second takes this request and the next. -/
def routed : List (Action ℕ) :=
  [.peerRequest 10, .poll] ++ List.replicate 5 .advance ++
    [.protocolEvent (.established 7 1), .protocolEvent (.established 8 2), .peerRequest 11,
      .close 1, .poll] ++ List.replicate 12 .advance

theorem routesRequests_of_routed :
    ∃ network, new.run routed = some network ∧ RoutesRequests routed network ∧
      network.handed = [(10, ⟨8, 2⟩), (11, ⟨8, 2⟩)] ∧ network.failed = [(10, ⟨7, 1⟩)] :=
  ⟨_, rfl, routesRequests routed _ rfl, rfl, rfl⟩

end Network

end ZkRess
