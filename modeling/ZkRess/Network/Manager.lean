import Mathlib.Data.List.Basic
import Mathlib.Tactic.Common

/-!
# Forwarding requests to peers

`RessNetworkManager` takes requests from one channel and hands each to a peer connection,
by turns; a request without a connection waits.  It is a future: between two polls it does
nothing, and in one poll it loops until its streams are empty.

What a poll does is cut into the steps between which the outside can be heard
(`Network.advance`): one round of the loop of `poll` reads one of the streams, and one
round of the loop of `on_peer_request` tries one connection.  Meanwhile events and requests
arrive and the other ends of connections go away, at any time (`Network.next`).  So a
stream that has nothing yet is one whose next item arrives later.

`UnboundedSender::send` fails exactly if the receiver is gone, and then gives the request
back.  The peer id of a connection is logged only, and kept as the code keeps it.
-/

namespace ZkRess

/-- The id of a peer. -/
abbrev PeerId := BitVec 512

/-- Peer connection handle.  Channels are numbered. -/
structure ConnectionHandle where
  peerId : PeerId
  toConnection : ℕ
  deriving DecidableEq, Repr

/-- `ProtocolEvent`.  The manager skips all but established connections. -/
inductive ProtocolEvent
  | established (peerId : PeerId) (toConnection : ℕ)
  | other
  deriving DecidableEq, Repr

/-- Network manager for forwarding requests to peer connections. -/
structure RessNetworkManager (R : Type) where
  /-- What `protocol_events` still holds. -/
  protocolEvents : List ProtocolEvent
  /-- What `peer_requests` still holds. -/
  peerRequests : List R
  connections : List ConnectionHandle
  pendingRequests : List R

/-- Where a poll of the manager is. -/
inductive PollState (R : Type)
  /-- It has returned `Poll::Pending`. -/
  | pending
  /-- At the beginning of the loop of `poll`. -/
  | looping
  /-- Before `peer_requests` is polled. -/
  | pollingRequests
  /-- At the beginning of the loop of `on_peer_request`, with this request in hand. -/
  | onPeerRequest (request : R)

/-- The manager and what it has done. -/
structure Network (R : Type) where
  manager : RessNetworkManager R
  pollState : PollState R
  /-- Channels whose receiver is gone. -/
  closed : List ℕ
  /-- Requests taken from the stream. -/
  received : List R
  /-- Connections taken from the stream. -/
  established : List ConnectionHandle
  /-- Requests sent, and the connections they were sent to. -/
  handed : List (R × ConnectionHandle)
  /-- Sends that failed. -/
  failed : List (R × ConnectionHandle)

variable {R : Type}

/-- Create new network manager. -/
def RessNetworkManager.new : RessNetworkManager R := ⟨[], [], [], []⟩

/-- The request that is being passed on. -/
def PollState.inHand : PollState R → List R
  | .onPeerRequest request => [request]
  | _ => []

namespace Network

/-- Before the first poll. -/
def new : Network R := ⟨.new, .pending, [], [], [], [], []⟩

/-- One round of the loop of `on_peer_request`: the request goes to the first connection. -/
def onPeerRequest (network : Network R) (request : R) : Network R :=
  match network.manager.connections with
  | [] =>
      -- no connections are available
      { network with
        manager := { network.manager with
          pendingRequests := network.manager.pendingRequests ++ [request] }
        pollState := .looping }
  | connection :: connections =>
      if connection.toConnection ∈ network.closed then
        -- the request is recovered, and the connection dropped
        { network with
          manager := { network.manager with connections }
          pollState := .onPeerRequest request
          failed := network.failed ++ [(request, connection)] }
      else
        { network with
          manager := { network.manager with connections := connections ++ [connection] }
          pollState := .looping
          handed := network.handed ++ [(request, connection)] }

/-- The loop of `poll` polls `protocol_events`. -/
def pollProtocolEvents (network : Network R) : Network R :=
  match network.manager.protocolEvents with
  | .established peerId toConnection :: protocolEvents =>
      { network with
        manager := { network.manager with
          protocolEvents
          connections := network.manager.connections ++ [⟨peerId, toConnection⟩] }
        pollState := .looping
        established := network.established ++ [⟨peerId, toConnection⟩] }
  | .other :: protocolEvents =>
      { network with
        manager := { network.manager with protocolEvents }
        pollState := .pollingRequests }
  | [] => { network with pollState := .pollingRequests }

/-- The loop of `poll` polls `peer_requests`. -/
def pollPeerRequests (network : Network R) : Network R :=
  match network.manager.peerRequests with
  | request :: peerRequests =>
      { network with
        manager := { network.manager with peerRequests }
        pollState := .onPeerRequest request
        received := network.received ++ [request] }
  | [] => { network with pollState := .pending }

/-- The next step of a poll. -/
def advance (network : Network R) : Option (Network R) :=
  match network.pollState with
  | .pending => none
  | .looping =>
      match network.manager.connections, network.manager.pendingRequests with
      | _ :: _, request :: pendingRequests =>
          some { network with
            manager := { network.manager with pendingRequests }
            pollState := .onPeerRequest request }
      | _, _ => some network.pollProtocolEvents
  | .pollingRequests => some network.pollPeerRequests
  | .onPeerRequest request => some (network.onPeerRequest request)

/-- What can happen. -/
inductive Action (R : Type)
  /-- The runtime polls the manager. -/
  | poll
  /-- The poll advances. -/
  | advance
  | protocolEvent (event : ProtocolEvent)
  | peerRequest (request : R)
  /-- The other end of a connection goes away. -/
  | close (toConnection : ℕ)

/-- The state after an action, if it is possible. -/
def next (network : Network R) : Action R → Option (Network R)
  | .poll =>
      match network.pollState with
      | .pending => some { network with pollState := .looping }
      | _ => none
  | .advance => network.advance
  | .protocolEvent event =>
      some { network with manager := { network.manager with
        protocolEvents := network.manager.protocolEvents ++ [event] } }
  | .peerRequest request =>
      some { network with manager := { network.manager with
        peerRequests := network.manager.peerRequests ++ [request] } }
  | .close toConnection => some { network with closed := toConnection :: network.closed }

/-- The state after a sequence of actions. -/
def run (network : Network R) : List (Action R) → Option (Network R)
  | [] => some network
  | action :: actions => (network.next action).bind fun network => network.run actions

/-! ## What an action does -/

/-- Nothing waits, or there is no connection to send it to. -/
def Idle (network : Network R) : Prop :=
  network.manager.connections = [] ∨ network.manager.pendingRequests = []

/-- **All that can happen.** -/
inductive Moves (network : Network R) : Action R → Network R → Prop
  | woken (pending : network.pollState = .pending) :
      Moves network .poll { network with pollState := .looping }
  /-- A request that waits is tried again. -/
  | replayed {connection connections request pendingRequests}
      (looping : network.pollState = .looping)
      (connected : network.manager.connections = connection :: connections)
      (waiting : network.manager.pendingRequests = request :: pendingRequests) :
      Moves network .advance { network with
        manager := { network.manager with pendingRequests }
        pollState := .onPeerRequest request }
  /-- A connection is added to the rotation. -/
  | joined {peerId toConnection protocolEvents} (looping : network.pollState = .looping)
      (idle : network.Idle)
      (read : network.manager.protocolEvents = .established peerId toConnection :: protocolEvents) :
      Moves network .advance { network with
        manager := { network.manager with
          protocolEvents
          connections := network.manager.connections ++ [⟨peerId, toConnection⟩] }
        pollState := .looping
        established := network.established ++ [⟨peerId, toConnection⟩] }
  | skipped {protocolEvents} (looping : network.pollState = .looping) (idle : network.Idle)
      (read : network.manager.protocolEvents = .other :: protocolEvents) :
      Moves network .advance { network with
        manager := { network.manager with protocolEvents }
        pollState := .pollingRequests }
  | quiet (looping : network.pollState = .looping) (idle : network.Idle)
      (read : network.manager.protocolEvents = []) :
      Moves network .advance { network with pollState := .pollingRequests }
  | received {request peerRequests} (polling : network.pollState = .pollingRequests)
      (read : network.manager.peerRequests = request :: peerRequests) :
      Moves network .advance { network with
        manager := { network.manager with peerRequests }
        pollState := .onPeerRequest request
        received := network.received ++ [request] }
  | returned (polling : network.pollState = .pollingRequests)
      (read : network.manager.peerRequests = []) :
      Moves network .advance { network with pollState := .pending }
  /-- A request is left to wait. -/
  | waits {request} (passing : network.pollState = .onPeerRequest request)
      (unconnected : network.manager.connections = []) :
      Moves network .advance { network with
        manager := { network.manager with
          pendingRequests := network.manager.pendingRequests ++ [request] }
        pollState := .looping }
  /-- A send fails, and its connection is dropped. -/
  | fails {request connection connections} (passing : network.pollState = .onPeerRequest request)
      (connected : network.manager.connections = connection :: connections)
      (gone : connection.toConnection ∈ network.closed) :
      Moves network .advance { network with
        manager := { network.manager with connections }
        pollState := .onPeerRequest request
        failed := network.failed ++ [(request, connection)] }
  /-- A request is sent, and the connection goes to the end. -/
  | hands {request connection connections} (passing : network.pollState = .onPeerRequest request)
      (connected : network.manager.connections = connection :: connections)
      (there : connection.toConnection ∉ network.closed) :
      Moves network .advance { network with
        manager := { network.manager with connections := connections ++ [connection] }
        pollState := .looping
        handed := network.handed ++ [(request, connection)] }
  | announced (event : ProtocolEvent) :
      Moves network (.protocolEvent event) { network with manager := { network.manager with
        protocolEvents := network.manager.protocolEvents ++ [event] } }
  | requested (request : R) :
      Moves network (.peerRequest request) { network with manager := { network.manager with
        peerRequests := network.manager.peerRequests ++ [request] } }
  | closes (toConnection : ℕ) :
      Moves network (.close toConnection)
        { network with closed := toConnection :: network.closed }

variable {network later : Network R} {request : R}

theorem onPeerRequest_moves (hpassing : network.pollState = .onPeerRequest request) :
    Moves network .advance (network.onPeerRequest request) := by
  unfold onPeerRequest
  match hconnections : network.manager.connections with
  | [] => exact .waits hpassing hconnections
  | connection :: connections =>
      dsimp only
      split
      · next hgone => exact .fails hpassing hconnections hgone
      · next hthere => exact .hands hpassing hconnections hthere

theorem pollProtocolEvents_moves (hlooping : network.pollState = .looping) (hidle : network.Idle) :
    Moves network .advance network.pollProtocolEvents := by
  unfold pollProtocolEvents
  match hevents : network.manager.protocolEvents with
  | [] => exact .quiet hlooping hidle hevents
  | .other :: protocolEvents => exact .skipped hlooping hidle hevents
  | .established peerId toConnection :: protocolEvents => exact .joined hlooping hidle hevents

theorem pollPeerRequests_moves (hpolling : network.pollState = .pollingRequests) :
    Moves network .advance network.pollPeerRequests := by
  unfold pollPeerRequests
  match hrequests : network.manager.peerRequests with
  | [] => exact .returned hpolling hrequests
  | request :: peerRequests => exact .received hpolling hrequests

/-- **Every step of a poll** is one of these; and only a poll that has returned has none. -/
theorem advance_moves (network : Network R) :
    network.pollState = .pending ∨
      ∃ later, network.advance = some later ∧ Moves network .advance later := by
  unfold advance
  match hstate : network.pollState with
  | .pending => exact .inl rfl
  | .pollingRequests => exact .inr ⟨_, rfl, pollPeerRequests_moves hstate⟩
  | .onPeerRequest request => exact .inr ⟨_, rfl, onPeerRequest_moves hstate⟩
  | .looping =>
      match hconnections : network.manager.connections,
        hpending : network.manager.pendingRequests with
      | connection :: connections, request :: pendingRequests =>
          exact .inr ⟨_, rfl, .replayed hstate hconnections hpending⟩
      | [], _ => exact .inr ⟨_, rfl, pollProtocolEvents_moves hstate (.inl hconnections)⟩
      | connection :: connections, [] =>
          exact .inr ⟨_, rfl, pollProtocolEvents_moves hstate (.inr hpending)⟩

theorem next_moves {action : Action R} (h : network.next action = some later) :
    Moves network action later := by
  match action, h with
  | .advance, h =>
      rcases advance_moves network with hpending | ⟨later', hadvance, hmoves⟩
      · simp [next, advance, hpending] at h
      · obtain rfl := Option.some.inj (hadvance.symm.trans h)
        exact hmoves
  | .poll, h =>
      simp only [next] at h
      split at h
      · next hpending =>
          cases h
          exact .woken hpending
      · cases h
  | .protocolEvent event, rfl => exact .announced event
  | .peerRequest request, rfl => exact .requested request
  | .close toConnection, rfl => exact .closes toConnection

/-- **The run rule**: what every action keeps, a run keeps. -/
theorem run_preserves (Inv : Network R → Prop)
    (hmoves : ∀ {network action later}, Moves network action later → Inv network → Inv later)
    {actions : List (Action R)} (hrun : network.run actions = some later) (h : Inv network) :
    Inv later := by
  induction actions generalizing network with
  | nil =>
      cases hrun
      exact h
  | cons action actions ih =>
      obtain ⟨middle, hnext, hrest⟩ := Option.bind_eq_some_iff.mp hrun
      exact ih hrest (hmoves (next_moves hnext) h)

end Network

end ZkRess
