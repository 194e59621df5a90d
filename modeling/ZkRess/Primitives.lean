import ZkRess.Foundation.KeyedMap

/-!
# Headers, blocks and engine-API values

The data the client passes around, with the fields its code reads.  A sealed
header or block caches its hash, as `SealedHeader` and `SealedBlock` do; the
hash is data here, and that a hash stands for one header only is a property of
the blocks of a run (`Preimage`), not of the type.

`RecoveredBlock` is a sealed block together with the senders recovered from its
transactions.  The senders are a function of the body and no code below reads
them, so sealed and recovered blocks share the type `Block`; whether recovery
succeeds is asked where the code asks it.

Block numbers are `ℕ`: the code subtracts with saturation, or under a guard that
the difference is positive, and never adds.
-/

namespace ZkRess

open Foundation

/-- A 32-byte hash. -/
abbrev B256 := BitVec 256

/-- Comparing hashes decides their equality. -/
instance : LawfulBEq B256 := inferInstance

/-- A block number together with a block hash. -/
structure BlockNumHash where
  number : ℕ
  hash : B256
  deriving DecidableEq, Repr

/-- The header fields read by the client. -/
structure Header where
  parentHash : B256
  number : ℕ
  stateRoot : B256
  difficulty : ℕ
  deriving DecidableEq, Repr

/-- A header with its hash. -/
structure SealedHeader extends Header where
  hash : B256
  deriving DecidableEq, Repr

/-- A sealed block.  Transactions, ommers and withdrawals are only read by the
consensus checks and the EVM, as the bytes they are encoded to. -/
structure Block extends SealedHeader where
  body : List UInt8
  deriving DecidableEq, Repr

/-- Number and hash of the header. -/
def SealedHeader.numHash (header : SealedHeader) : BlockNumHash :=
  ⟨header.number, header.hash⟩

/-- Number and hash of the parent; the number saturates at genesis. -/
def SealedHeader.parentNumHash (header : SealedHeader) : BlockNumHash :=
  ⟨header.number - 1, header.parentHash⟩

/-- Validated or pending blocks, each under its own hash. -/
abbrev BlocksByHash := KeyedMap (fun block : Block => block.hash)

/-- A block reference together with its parent hash. -/
structure BlockWithParent where
  parent : B256
  block : BlockNumHash
  deriving DecidableEq, Repr

/-- The reference under which an invalid block is remembered. -/
def SealedHeader.blockWithParent (header : SealedHeader) : BlockWithParent :=
  ⟨header.parentHash, header.numHash⟩

/-- **Collision freeness**: what a hash can be the hash of.  Blocks and headers
that conform to one preimage function are identified by their hashes. -/
abbrev Preimage := B256 → Option SealedHeader

/-- The header is the one its hash stands for. -/
def SealedHeader.Conforms (header : SealedHeader) (preimage : Preimage) : Prop :=
  preimage header.hash = some header

instance (header : SealedHeader) (preimage : Preimage) : Decidable (header.Conforms preimage) :=
  inferInstanceAs (Decidable (preimage header.hash = some header))

/-! ## Engine API -/

/-- The fork choice the consensus client announces. -/
structure ForkchoiceState where
  headBlockHash : B256
  safeBlockHash : B256
  finalizedBlockHash : B256
  deriving DecidableEq, Repr

/-- Payload attributes, handed unread to the two validators of the node. -/
structure PayloadAttributes where
  encoded : List UInt8
  deriving DecidableEq, Repr

/-- A payload as announced: the hash it claims, its parent and number, and the
remaining fields, read only when the block is rebuilt from it. -/
structure ExecutionData where
  blockHash : B256
  parentHash : B256
  blockNumber : ℕ
  encoded : List UInt8
  deriving DecidableEq, Repr

/-- `PayloadStatusEnum`. -/
inductive PayloadStatusEnum
  | valid
  | invalid (validationError : String)
  | syncing
  | accepted
  deriving DecidableEq, Repr

/-- The status returned for a payload or a fork-choice update. -/
structure PayloadStatus where
  status : PayloadStatusEnum
  latestValidHash : Option B256
  deriving DecidableEq, Repr

/-- `PayloadStatus::is_syncing`. -/
def PayloadStatus.isSyncing (status : PayloadStatus) : Bool :=
  status.status = .syncing

/-- Why a payload is not well formed: which of the two mismatches the code asks
about it is, and the text of the error. -/
structure PayloadError where
  isBlockHashMismatch : Bool
  isInvalidVersionedHashes : Bool
  message : String
  deriving DecidableEq, Repr

/-- The answer to a fork-choice update. -/
inductive OnForkChoiceUpdated
  /-- `OnForkChoiceUpdated::valid`, with the status it carries. -/
  | valid (status : PayloadStatus)
  /-- `OnForkChoiceUpdated::with_invalid`. -/
  | withInvalid (status : PayloadStatus)
  /-- `OnForkChoiceUpdated::invalid_state`: an error, not a status. -/
  | invalidState
  /-- `OnForkChoiceUpdated::invalid_payload_attributes`: an error, not a status. -/
  | invalidPayloadAttributes
  deriving DecidableEq, Repr

/-- `ForkchoiceStatus`. -/
inductive ForkchoiceStatus
  | valid
  | invalid
  | syncing
  deriving DecidableEq, Repr

/-! ## Errors -/

/-- Consensus violations; only the state-root mismatch is built by this code. -/
inductive ConsensusError
  | bodyStateRootDiff (got expected : B256)
  | other (message : String)
  deriving DecidableEq, Repr

/-- Failures to read chain or state data. -/
inductive ProviderError
  | trieWitnessError (message : String)
  | stateForNumberNotFound (number : ℕ)
  | headerNotFound (hash : B256)
  | senderRecoveryError
  | rlp (message : String)
  deriving DecidableEq, Repr

/-- Failures of block execution. -/
inductive BlockExecutionError
  | validation (message : String)
  | internal (error : ProviderError)
  deriving DecidableEq, Repr

/-- All ways `BlockVerifier::verify` fails. -/
inductive VerifierError
  | consensus (error : ConsensusError)
  | execution (error : BlockExecutionError)
  | provider (error : ProviderError)
  | other (message : String)
  deriving DecidableEq, Repr

/-- `InsertBlockErrorKind`, as far as this code builds it. -/
inductive InsertBlockErrorKind
  | consensus (error : ConsensusError)
  | execution (error : BlockExecutionError)
  | provider (error : ProviderError)
  | other (message : String)
  deriving DecidableEq, Repr

/-- `InsertBlockFatalError`. -/
inductive InsertBlockFatalError
  | provider (error : ProviderError)
  | blockExecutionError (message : String)
  deriving DecidableEq, Repr

/-- `InsertBlockValidationError`, known by its text. -/
structure InsertBlockValidationError where
  message : String
  deriving DecidableEq, Repr

end ZkRess
