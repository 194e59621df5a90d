import ZkRess.Engine.ChainUpdate
import ZkRess.Network.ProofProtocol

/-!
# A network of nodes that exchange proofs

Stateless nodes ask each other for proofs, and answer from what they have stored.  In this
model every response ever sent stays in the network, so that responses are delayed,
reordered and delivered more than once in all possible ways.  Whoever is not a node of the
network is an outsider and may send anything; the stateful nodes, which make proofs, are
outsiders too.
-/

namespace ZkRess

open ConsensusEngine

/-- A response to requests for the proof of a block. -/
structure SentProof (ι : Type) where
  /-- The node that sent it, or an outsider. -/
  sender : Option ι
  blockHash : B256
  bytes : Bytes

/-- The nodes, and everything sent so far. -/
structure ProofNetwork (ι : Type) (X : Externals) where
  nodes : ι → ConsensusEngine X
  sent : List (SentProof ι)

namespace ProofNetwork

variable {ι P : Type} {X : Externals}

/-- All nodes launched, nothing sent. -/
def launch (X : Externals) (genesis : ι → Block) : ProofNetwork ι X :=
  ⟨fun i => .launch X (genesis i), []⟩

/-- The outcome, if it is a proof, was read from a response for its block by a
`FetchProofFuture`. -/
def ReadFrom (codec : ProofCodec P) (sent : List (SentProof ι)) (event : Processed P) : Prop :=
  ∀ hash proof, event = .outcome (.proof hash proof) → ∃ message ∈ sent,
    message.blockHash = hash ∧ FetchProofFuture.onResponse codec (.ok message.bytes) = some proof

/-- **One step of the network.** -/
inductive Exchange [DecidableEq ι] (codec : ProofCodec X.Proof) (feed : ι → Feed X)
    (net : ProofNetwork ι X) : ProofNetwork ι X → Prop
  /-- A node answers a request. -/
  | serve (i : ι) (blockHash : B256) : Exchange codec feed net
      { net with sent := net.sent ++
          [⟨some i, blockHash, (net.nodes i).tree.provider.encodedProof codec blockHash⟩] }
  /-- An outsider sends something. -/
  | outside (blockHash : B256) (bytes : Bytes) : Exchange codec feed net
      { net with sent := net.sent ++ [⟨none, blockHash, bytes⟩] }
  /-- The requests a node has in flight advance. -/
  | polled (i : ι) (downloader : EngineDownloader X.Proof) : Exchange codec feed net
      { net with nodes := Function.update net.nodes i { net.nodes i with downloader } }
  /-- A node processes an event. -/
  | process (i : ι) {event : Processed X.Proof} {engine' : ConsensusEngine X}
      (provided : (feed i).Provides event) (ordered : DeliveredInOrder (feed i) (net.nodes i) event)
      (received : ReadFrom codec net.sent event) (step : Step (net.nodes i) event engine') :
      Exchange codec feed net { net with nodes := Function.update net.nodes i engine' }

/-- The states of the network. -/
def Reachable [DecidableEq ι] (codec : ProofCodec X.Proof) (feed : ι → Feed X)
    (genesis : ι → Block) : ProofNetwork ι X → Prop :=
  Relation.ReflTransGen (Exchange codec feed) (launch X genesis)

/-- **Originated**: an outsider has sent the proof for this block. -/
def Originated (codec : ProofCodec P) (sent : List (SentProof ι)) (hash : B256) (proof : P) :
    Prop :=
  ∃ message ∈ sent, message.sender = none ∧ message.blockHash = hash ∧
    FetchProofFuture.onResponse codec (.ok message.bytes) = some proof

theorem Originated.append {codec : ProofCodec P} {sent : List (SentProof ι)} {hash : B256}
    {proof : P} (h : Originated codec sent hash proof) (later : List (SentProof ι)) :
    Originated codec (sent ++ later) hash proof := by
  obtain ⟨message, hmem, horigin⟩ := h
  exact ⟨message, List.mem_append_left _ hmem, horigin⟩

end ProofNetwork

end ZkRess
