import ZkRess.Provider.ChainState

/-!
# What the engine calls and does not define

The engine tree calls consensus checks, the payload validator, the block
verifier and two small data structures of the node it is built on: the cache of
invalid headers and the tracker of fork-choice states.  They are collected in
`Externals`, the one parameter of the engine model.

What the code relies on is stated as separate properties of the parameter, each
named after the part it is about, and a result names the ones it needs.  The
cache is the important one.  It is bounded and forgets entries on its own, so
its law (`InvalidHeaderCache.Lawful`) says only where an entry can come from:
the two insertions.
-/

namespace ZkRess

open Foundation

/-! ## The invalid-header cache -/

/-- `InvalidHeaderCache`, with a view of its contents.  A lookup may count hits
and drop what was hit too often, so it returns a new cache. -/
structure InvalidHeaderCache where
  State : Type
  /-- The cache without entries, limited to 256 of them. -/
  new : State
  /-- The entries: the hash of a block, and the reference to its invalid
  ancestor-or-self. -/
  contents : State → FiniteMap B256 BlockWithParent
  get : State → B256 → Option BlockWithParent × State
  insert : State → BlockWithParent → State
  insertWithInvalidAncestor : State → B256 → BlockWithParent → State

namespace InvalidHeaderCache

/-- **Provenance of entries**: a lookup answers from the contents and adds
nothing; an insertion adds its own entry only. -/
structure Lawful (cache : InvalidHeaderCache) : Prop where
  new_empty : ∀ hash, (cache.contents cache.new).get hash = none
  get_sound : ∀ s hash entry, (cache.get s hash).1 = some entry →
    (cache.contents s).get hash = some entry
  get_shrinks : ∀ s hash hash' entry,
    (cache.contents (cache.get s hash).2).get hash' = some entry →
      (cache.contents s).get hash' = some entry
  insert_adds : ∀ s block hash entry,
    (cache.contents (cache.insert s block)).get hash = some entry →
      (hash = block.block.hash ∧ entry = block) ∨ (cache.contents s).get hash = some entry
  insertWith_adds : ∀ s head block hash entry,
    (cache.contents (cache.insertWithInvalidAncestor s head block)).get hash = some entry →
      (hash = head ∧ entry = block) ∨ (cache.contents s).get hash = some entry

/-- The hash has an entry. -/
def Cached (cache : InvalidHeaderCache) (s : cache.State) (hash : B256) : Prop :=
  ∃ entry, (cache.contents s).get hash = some entry

end InvalidHeaderCache

/-! ## The fork-choice tracker -/

/-- `ForkchoiceStateTracker`. -/
structure ForkchoiceStateTracker where
  State : Type
  default : State
  setLatest : State → ForkchoiceState → ForkchoiceStatus → State
  /-- The state the node is syncing to. -/
  syncTargetState : State → Option ForkchoiceState

/-- **The sync target** is the last state answered with `Syncing`, until a state
is answered with `Valid`. -/
structure ForkchoiceStateTracker.Lawful (tracker : ForkchoiceStateTracker) : Prop where
  default_none : tracker.syncTargetState tracker.default = none
  syncing : ∀ s state, tracker.syncTargetState (tracker.setLatest s state .syncing) = some state
  valid : ∀ s state, tracker.syncTargetState (tracker.setLatest s state .valid) = none
  invalid : ∀ s state, tracker.syncTargetState (tracker.setLatest s state .invalid)
    = tracker.syncTargetState s

/-! ## All external parts -/

/-- The external parts of the engine. -/
structure Externals where
  /-- `ExecutionProof`: the proofs blocks are verified with. -/
  Proof : Type
  invalidHeaderCache : InvalidHeaderCache
  forkchoiceStateTracker : ForkchoiceStateTracker
  /-- `EthBeaconConsensus::validate_header`. -/
  validateHeader : SealedHeader → Except ConsensusError Unit
  /-- `EthBeaconConsensus::validate_block_pre_execution`. -/
  validateBlockPreExecution : Block → Except ConsensusError Unit
  /-- `EthereumEngineValidator::ensure_well_formed_payload`. -/
  ensureWellFormedPayload : ExecutionData → Except PayloadError Block
  /-- `validate_payload_attributes_against_header` accepts. -/
  validatePayloadAttributesAgainstHeader : PayloadAttributes → Header → Bool
  /-- `EthPayloadBuilderAttributes::try_new` succeeds; the version is passed as a
  number. -/
  payloadBuilderAttributesTryNew : B256 → PayloadAttributes → UInt8 → Bool
  /-- `SealedBlock::try_recover` finds the senders. -/
  tryRecover : Block → Bool
  /-- `BlockVerifier::verify`; a verifier reads block hashes from the provider. -/
  verify : ChainState Proof → Block → SealedHeader → Proof → Except VerifierError Unit
  /-- `InsertBlockErrorKind::ensure_validation_error`. -/
  ensureValidationError :
    InsertBlockErrorKind → Except InsertBlockFatalError InsertBlockValidationError
  /-- `OnForkChoiceUpdated::forkchoice_status`. -/
  forkchoiceStatus : OnForkChoiceUpdated → ForkchoiceStatus

namespace Externals

/-- A well-formed payload becomes the block with the hash it claims. -/
def PayloadHashes (X : Externals) : Prop :=
  ∀ payload block, X.ensureWellFormedPayload payload = .ok block →
    block.hash = payload.blockHash

/-- A verified block is numbered one above its parent: `verify` checks the header
against the parent's. -/
def VerifiesNumber (X : Externals) : Prop :=
  ∀ provider block parent proof, X.verify provider block parent proof = .ok () →
    block.number = parent.number + 1

/-- Exactly the answers with payload status `Syncing` are tracked as syncing. -/
def TracksSyncing (X : Externals) : Prop :=
  ∀ updated, X.forkchoiceStatus updated = .syncing ↔
    ∃ latest, updated = .valid ⟨.syncing, latest⟩

end Externals

end ZkRess
