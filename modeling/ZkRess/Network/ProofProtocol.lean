import ZkRess.Engine.DownloadFutures
import ZkRess.Evm.State
import ZkRess.Provider.ChainState

/-!
# Proofs on the wire

Both ends of a request for a proof.  The provider answers peers from the chain state
(`ZkRessProtocolProvider` of `provider.rs`): headers and bodies of stored blocks, and the
encoded proofs they were verified with.  `FetchProofFuture` of `download/futs.rs` asks for
a proof until it is sent one that it can decode and that is not empty.

As for the other futures, the responses that are ready before the first one that is not are
the input of a poll.
-/

namespace ZkRess

/-- `ExecutionProof`: how proofs are encoded, and which of them are empty. -/
structure ProofCodec (P : Type) where
  encode : P → Bytes
  /-- The error is the message of the decoder. -/
  decode : Bytes → Except String P
  isEmpty : P → Bool

/-- **The encoding**: a proof is read back, and no proof is read from nothing. -/
structure ProofCodec.Lawful {P : Type} (codec : ProofCodec P) : Prop where
  decode_encode : ∀ proof, codec.decode (codec.encode proof) = .ok proof
  decode_nil : ∃ message, codec.decode [] = .error message

variable {P : Type}

/-! ## The serving side -/

namespace ChainState

/-- Header by hash. -/
def header (cs : ChainState P) (hash : B256) : Option Header :=
  (cs.blocksByHash.get hash).map fun block => block.toHeader

/-- Block body by hash. -/
def blockBody (cs : ChainState P) (hash : B256) : Option BlockBody :=
  (cs.blocksByHash.get hash).map fun block => block.body

/-- Proof by hash. -/
def proof (cs : ChainState P) (hash : B256) : Option P := cs.proofs.get hash

/-- `ZkRessProtocolProvider::proof`: the encoded proof; nothing when there is none. -/
def encodedProof (codec : ProofCodec P) (cs : ChainState P) (hash : B256) : Bytes :=
  match cs.proof hash with
  | some proof => codec.encode proof
  | none => []

/-- What a peer reads from an answer is the stored proof. -/
theorem decode_encodedProof {codec : ProofCodec P} (hlawful : codec.Lawful) {cs : ChainState P}
    {hash : B256} {proof : P} :
    codec.decode (cs.encodedProof codec hash) = .ok proof ↔ cs.proof hash = some proof := by
  unfold encodedProof
  cases cs.proof hash with
  | none =>
      obtain ⟨message, hnil⟩ := hlawful.decode_nil
      rw [hnil]
      exact iff_of_false nofun nofun
  | some stored =>
      rw [hlawful.decode_encode]
      exact ⟨fun heq => congrArg some (Except.ok.inj heq), fun heq => congrArg _ (Option.some.inj heq)⟩

end ChainState

/-! ## The asking side -/

/-- A response to a request for a proof. -/
abbrev ProofResponse := Except PeerRequestError Bytes

/-- A future that downloads a proof from the network. -/
structure FetchProofFuture where
  blockHash : B256
  retryDelay : ℕ
  /-- The request in flight. -/
  pending : PartRequest
  /-- The requests sent so far. -/
  requests : List PartRequest
  deriving DecidableEq, Repr

/-- What a poll for a proof ends with. -/
inductive ProofPoll (P : Type)
  | pending (future : FetchProofFuture)
  | ready (proof : P)

namespace FetchProofFuture

/-- Create new fetch proof future. -/
def new (retryDelay : ℕ) (blockHash : B256) : FetchProofFuture :=
  ⟨blockHash, retryDelay, ⟨blockHash, 0⟩, [⟨blockHash, 0⟩]⟩

/-- Ask again, after the delay. -/
def proofRequest (future : FetchProofFuture) : FetchProofFuture :=
  { future with
    pending := ⟨future.blockHash, future.retryDelay⟩
    requests := future.requests ++ [⟨future.blockHash, future.retryDelay⟩] }

variable (codec : ProofCodec P)

/-- The proof of a response that is accepted. -/
def onResponse : ProofResponse → Option P
  | .error _ => none
  | .ok bytes =>
      match codec.decode bytes with
      | .ok proof => if codec.isEmpty proof then none else some proof
      | .error _ => none

/-- Poll through the responses that are ready; after the last, the request in flight is
pending. -/
def poll (future : FetchProofFuture) : List ProofResponse → ProofPoll P
  | [] => .pending future
  | response :: responses =>
      match onResponse codec response with
      | some proof => .ready proof
      | none => poll future.proofRequest responses

variable {codec}

/-- **A future is settled by the first response it accepts**, and asks again after every
other. -/
theorem poll_eq (future : FetchProofFuture) (responses : List ProofResponse) :
    future.poll codec responses
      = match responses.findSome? (onResponse codec) with
        | some proof => .ready proof
        | none => .pending (responses.foldl (fun future _ => future.proofRequest) future) := by
  induction responses generalizing future with
  | nil => rfl
  | cons response responses ih =>
      rw [poll, List.findSome?_cons]
      cases onResponse codec response with
      | some proof => rfl
      | none => exact ih future.proofRequest

theorem poll_ready_iff {future : FetchProofFuture} {responses : List ProofResponse} {proof : P} :
    future.poll codec responses = .ready proof ↔
      responses.findSome? (onResponse codec) = some proof := by
  rw [poll_eq]
  cases responses.findSome? (onResponse codec) with
  | none => exact iff_of_false nofun nofun
  | some found =>
      exact ⟨fun heq => congrArg some (ProofPoll.ready.inj heq),
        fun heq => congrArg ProofPoll.ready (Option.some.inj heq)⟩

/-- Asking again keeps what is asked for. -/
theorem foldl_proofRequest_blockHash (future : FetchProofFuture) (responses : List ProofResponse) :
    (responses.foldl (fun future _ => future.proofRequest) future).blockHash
      = future.blockHash := by
  induction responses generalizing future with
  | nil => rfl
  | cons response responses ih => exact ih future.proofRequest

theorem onResponse_eq_some {response : ProofResponse} {proof : P} :
    onResponse codec response = some proof ↔
      ∃ bytes, response = .ok bytes ∧ codec.decode bytes = .ok proof ∧
        codec.isEmpty proof = false := by
  cases response with
  | error error => exact iff_of_false nofun nofun
  | ok bytes =>
      rw [onResponse]
      cases hdecode : codec.decode bytes with
      | error message => exact iff_of_false nofun (by rintro ⟨_, ⟨⟩, h, -⟩; cases hdecode.symm.trans h)
      | ok decoded =>
          simp only
          cases hempty : codec.isEmpty decoded with
          | true =>
              rw [if_pos rfl]
              refine iff_of_false nofun ?_
              rintro ⟨_, ⟨⟩, h, hfull⟩
              cases hdecode.symm.trans h
              cases hempty.symm.trans hfull
          | false =>
              rw [if_neg Bool.false_ne_true]
              constructor
              · rintro ⟨⟩
                exact ⟨bytes, rfl, hdecode, hempty⟩
              · rintro ⟨_, ⟨⟩, h, -⟩
                cases hdecode.symm.trans h
                rfl

end FetchProofFuture

end ZkRess
