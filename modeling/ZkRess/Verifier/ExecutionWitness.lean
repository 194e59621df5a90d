import ZkRess.Engine.Externals
import ZkRess.Evm.Database
import ZkRess.Verifier.StateRoot

/-!
# The execution-witness verifier

`ExecutionWitnessVerifier::verify` and the block executor it runs: consensus checks,
the witness revealed from the parent's state root, the block executed against the
witness database, and the state root of the result compared with the header's.

Execution is a program that asks its database; it ends with an output, of which the
verifier reads the state update, or with an error of its own.  `verify_ok` says what an
accepted block went through, and `VerifiesSoundly` what it should imply about the
execution over a complete state.
-/

namespace ZkRess

open Foundation

/-- Execution witness: trie nodes and bytecodes, as a peer sends them. -/
structure ExecutionStateWitness where
  state : List Bytes
  bytecodes : List Bytes
  deriving DecidableEq, Repr

/-- The consensus checks, and the EVM. -/
structure VerifierExternals extends EvmExternals where
  /-- `EthBeaconConsensus`. -/
  validateHeader : SealedHeader → Except ConsensusError Unit
  validateBlockPreExecution : Block → Except ConsensusError Unit
  validateHeaderAgainstParent : SealedHeader → SealedHeader → Except ConsensusError Unit
  /-- `BlockExecutionOutput`: the bundle state and the execution result. -/
  BlockExecutionOutput : Type
  validateBlockPostExecution : Block → BlockExecutionOutput → Except ConsensusError Unit
  /-- `HashedPostState::from_bundle_state`, with the keccak key hasher. -/
  fromBundleState : BlockExecutionOutput → HashedPostState
  /-- The execution of a block: the changes before it, its transactions, and the changes
  after it. -/
  executeBlock : Block → Query DatabaseQuery (DatabaseQuery.Answer Bytecode)
    (Except BlockExecutionError BlockExecutionOutput)

namespace VerifierExternals

variable (X : VerifierExternals) {P : Type}

/-- Execute a block against a database; its failures are internal errors. -/
def executeWith
    (answer : ∀ query : DatabaseQuery, Except ProviderError (query.Answer X.Bytecode))
    (block : Block) : Except BlockExecutionError X.BlockExecutionOutput :=
  match (X.executeBlock block).run answer with
  | .error error => .error (.internal error)
  | .ok result => result

/-- `BlockExecutor::execute`, with the database `BlockExecutor::new` builds. -/
def execute (provider : ChainState P) (parent : BlockNumHash) (trie : X.StateTrie)
    (bytecodes : FiniteMap B256 X.Bytecode) (block : Block) :
    Except BlockExecutionError X.BlockExecutionOutput :=
  X.executeWith (WitnessDatabase.answer (X := X.toEvmExternals) ⟨provider, parent, trie, bytecodes⟩)
    block

/-- The trie nodes of a proof, by their hashes. -/
def stateWitness (state : List Bytes) : FiniteMap B256 Bytes :=
  state.foldl (fun witness encoded => witness.insert (X.keccak256 encoded) encoded) ∅

/-- Verify that the block is valid. -/
def verify (schedule : List X.StorageResult → List X.StorageResult) (provider : ChainState P)
    (block : Block) (parent : SealedHeader) (proof : ExecutionStateWitness) :
    Except VerifierError Unit := do
  -- pre-execution validation
  (X.validateHeader block.toSealedHeader).mapError .consensus
  (X.validateBlockPreExecution block).mapError .consensus
  (X.validateHeaderAgainstParent block.toSealedHeader parent).mapError .consensus
  -- witness
  let trie ← (X.revealWitness X.new parent.stateRoot (X.stateWitness proof.state)).mapError
    fun error => .provider (.trieWitnessError (X.errorToString error))
  let bytecodes := X.hashBytecodes proof.bytecodes
  -- execution
  let output ← (X.execute provider block.parentNumHash trie bytecodes block).mapError .execution
  -- post-execution validation
  (X.validateBlockPostExecution block output).mapError .consensus
  -- state root
  let stateRoot ← (X.calculateStateRoot schedule trie (X.fromBundleState output)).mapError
    fun error => .provider (.trieWitnessError (X.errorToString error))
  if stateRoot ≠ block.stateRoot then
    .error (.consensus (.bodyStateRootDiff stateRoot block.stateRoot))
  else .ok ()

/-! ## Accepted blocks -/

variable {X} {schedule : List X.StorageResult → List X.StorageResult} {provider : ChainState P}
  {block : Block} {parent : SealedHeader} {proof : ExecutionStateWitness}

private theorem bind_eq_ok {E E' A B : Type} {x : Except E A} {f : E → E'}
    {next : A → Except E' B} {b : B} (h : (x.mapError f >>= next) = .ok b) :
    ∃ a, x = .ok a ∧ next a = .ok b := by
  cases x with
  | error e => cases h
  | ok a => exact ⟨a, rfl, h⟩

/-- **What an accepted block went through.** -/
theorem verify_ok (hok : X.verify schedule provider block parent proof = .ok ()) :
    X.validateHeaderAgainstParent block.toSealedHeader parent = .ok () ∧
      ∃ trie output,
        X.revealWitness X.new parent.stateRoot (X.stateWitness proof.state) = .ok trie ∧
        X.execute provider block.parentNumHash trie (X.hashBytecodes proof.bytecodes) block
          = .ok output ∧
        X.calculateStateRoot schedule trie (X.fromBundleState output) = .ok block.stateRoot := by
  unfold verify at hok
  obtain ⟨-, -, hok⟩ := bind_eq_ok hok
  obtain ⟨-, -, hok⟩ := bind_eq_ok hok
  obtain ⟨⟨⟩, hparent, hok⟩ := bind_eq_ok hok
  obtain ⟨trie, htrie, hok⟩ := bind_eq_ok hok
  obtain ⟨output, houtput, hok⟩ := bind_eq_ok hok
  obtain ⟨-, -, hok⟩ := bind_eq_ok hok
  obtain ⟨root, hroot, hok⟩ := bind_eq_ok hok
  split at hok
  · cases hok
  · next heq =>
    rw [not_not.mp heq] at hroot
    exact ⟨hparent, trie, output, htrie, houtput, hroot⟩

/-- The body of an accepted block passes the checks before the execution. -/
theorem validatesBody_of_verify (hok : X.verify schedule provider block parent proof = .ok ()) :
    X.validateBlockPreExecution block = .ok () := by
  unfold verify at hok
  obtain ⟨-, -, hok⟩ := bind_eq_ok hok
  obtain ⟨⟨⟩, hbody, -⟩ := bind_eq_ok hok
  exact hbody

/-- **The stages of an accepted block**, and that only the execution reads the provider: with
another one, verification ends as the execution does. -/
theorem verify_stages (hok : X.verify schedule provider block parent proof = .ok ()) :
    ∃ trie output, X.execute provider block.parentNumHash trie (X.hashBytecodes proof.bytecodes)
        block = .ok output ∧
      ∀ provider' : ChainState P,
        (X.execute provider' block.parentNumHash trie (X.hashBytecodes proof.bytecodes) block
            = .ok output → X.verify schedule provider' block parent proof = .ok ()) ∧
          ∀ error, X.execute provider' block.parentNumHash trie (X.hashBytecodes proof.bytecodes)
            block = .error error →
              X.verify schedule provider' block parent proof = .error (.execution error) := by
  unfold verify at hok
  obtain ⟨⟨⟩, hheader, hok⟩ := bind_eq_ok hok
  obtain ⟨⟨⟩, hbody, hok⟩ := bind_eq_ok hok
  obtain ⟨⟨⟩, hparent, hok⟩ := bind_eq_ok hok
  obtain ⟨trie, htrie, hok⟩ := bind_eq_ok hok
  obtain ⟨output, houtput, hok⟩ := bind_eq_ok hok
  obtain ⟨⟨⟩, hpost, hok⟩ := bind_eq_ok hok
  obtain ⟨root, hroot, hok⟩ := bind_eq_ok hok
  refine ⟨trie, output, houtput, fun provider' => ⟨fun hexecute => ?_, fun error hexecute => ?_⟩⟩
  · unfold verify
    rw [hheader, hbody, hparent, htrie]
    simp only [Except.mapError, bind, Except.bind, hexecute, hpost, hroot]
    exact hok
  · unfold verify
    rw [hheader, hbody, hparent, htrie]
    simp only [Except.mapError, bind, Except.bind, hexecute]

/-- **The stages of a verification**, and where it stops. -/
inductive Verifies (X : VerifierExternals) (schedule : List X.StorageResult → List X.StorageResult)
    (provider : ChainState P) (block : Block) (parent : SealedHeader)
    (proof : ExecutionStateWitness) : Except VerifierError Unit → Prop
  | badHeader {error : ConsensusError}
      (failed : X.validateHeader block.toSealedHeader = .error error) :
      Verifies X schedule provider block parent proof (.error (.consensus error))
  | badBody {error : ConsensusError} (failed : X.validateBlockPreExecution block = .error error) :
      Verifies X schedule provider block parent proof (.error (.consensus error))
  | badParent {error : ConsensusError}
      (failed : X.validateHeaderAgainstParent block.toSealedHeader parent = .error error) :
      Verifies X schedule provider block parent proof (.error (.consensus error))
  | badWitness {message : String} :
      Verifies X schedule provider block parent proof
        (.error (.provider (.trieWitnessError message)))
  | badExecution {trie : X.StateTrie} {error : BlockExecutionError}
      (revealed : X.revealWitness X.new parent.stateRoot (X.stateWitness proof.state) = .ok trie)
      (failed : X.execute provider block.parentNumHash trie (X.hashBytecodes proof.bytecodes) block
        = .error error) :
      Verifies X schedule provider block parent proof (.error (.execution error))
  | badOutput {trie : X.StateTrie} {output : X.BlockExecutionOutput} {error : ConsensusError}
      (revealed : X.revealWitness X.new parent.stateRoot (X.stateWitness proof.state) = .ok trie)
      (executed : X.execute provider block.parentNumHash trie (X.hashBytecodes proof.bytecodes)
        block = .ok output)
      (failed : X.validateBlockPostExecution block output = .error error) :
      Verifies X schedule provider block parent proof (.error (.consensus error))
  | badRoot {trie : X.StateTrie} {output : X.BlockExecutionOutput} {stateRoot : B256}
      (revealed : X.revealWitness X.new parent.stateRoot (X.stateWitness proof.state) = .ok trie)
      (executed : X.execute provider block.parentNumHash trie (X.hashBytecodes proof.bytecodes)
        block = .ok output)
      (computed : X.calculateStateRoot schedule trie (X.fromBundleState output) = .ok stateRoot)
      (differs : stateRoot ≠ block.stateRoot) :
      Verifies X schedule provider block parent proof
        (.error (.consensus (.bodyStateRootDiff stateRoot block.stateRoot)))
  | accepted {trie : X.StateTrie} {output : X.BlockExecutionOutput}
      (header : X.validateHeader block.toSealedHeader = .ok ())
      (body : X.validateBlockPreExecution block = .ok ())
      (linked : X.validateHeaderAgainstParent block.toSealedHeader parent = .ok ())
      (revealed : X.revealWitness X.new parent.stateRoot (X.stateWitness proof.state) = .ok trie)
      (executed : X.execute provider block.parentNumHash trie (X.hashBytecodes proof.bytecodes)
        block = .ok output)
      (checked : X.validateBlockPostExecution block output = .ok ())
      (computed : X.calculateStateRoot schedule trie (X.fromBundleState output)
        = .ok block.stateRoot) :
      Verifies X schedule provider block parent proof (.ok ())

/-- **Verification, stage by stage.** -/
theorem verify_cases (X : VerifierExternals)
    (schedule : List X.StorageResult → List X.StorageResult) (provider : ChainState P)
    (block : Block) (parent : SealedHeader) (proof : ExecutionStateWitness) :
    Verifies X schedule provider block parent proof
      (X.verify schedule provider block parent proof) := by
  unfold verify
  cases hheader : X.validateHeader block.toSealedHeader with
  | error error => exact .badHeader hheader
  | ok _ =>
  cases hbody : X.validateBlockPreExecution block with
  | error error => exact .badBody hbody
  | ok _ =>
  cases hparent : X.validateHeaderAgainstParent block.toSealedHeader parent with
  | error error => exact .badParent hparent
  | ok _ =>
  cases htrie : X.revealWitness X.new parent.stateRoot (X.stateWitness proof.state) with
  | error error => exact .badWitness
  | ok trie =>
  simp only [Except.mapError, bind, Except.bind]
  cases hexecute : X.execute provider block.parentNumHash trie (X.hashBytecodes proof.bytecodes)
      block with
  | error error => exact .badExecution htrie hexecute
  | ok output =>
  dsimp only
  cases hpost : X.validateBlockPostExecution block output with
  | error error => exact .badOutput htrie hexecute hpost
  | ok _ =>
  dsimp only
  cases hroot : X.calculateStateRoot schedule trie (X.fromBundleState output) with
  | error error => exact .badWitness
  | ok stateRoot =>
      dsimp only
      by_cases hdiffers : stateRoot ≠ block.stateRoot
      · simp only [if_pos hdiffers]
        exact .badRoot htrie hexecute hroot hdiffers
      · simp only [if_neg hdiffers]
        rw [not_not.mp hdiffers] at hroot
        exact .accepted hheader hbody hparent htrie hexecute hpost hroot

theorem executeWith_of_run
    {answer : ∀ query : DatabaseQuery, Except ProviderError (query.Answer X.Bytecode)}
    {result : Except BlockExecutionError X.BlockExecutionOutput}
    (hrun : (X.executeBlock block).run answer = .ok result) :
      X.executeWith answer block = result := by
  rw [executeWith, hrun]

/-- Executions agree where their databases agree on the queries of one of them. -/
theorem executeWith_eq_of_answers
    {answer answer' : ∀ query : DatabaseQuery, Except ProviderError (query.Answer X.Bytecode)}
    (hagree : ∀ query ∈ (X.executeBlock block).asked answer, ∀ a,
      answer' query = .ok a → answer query = .ok a) {output : X.BlockExecutionOutput}
    (hok : X.executeWith answer' block = .ok output) : X.executeWith answer block = .ok output := by
  unfold executeWith at hok
  split at hok
  · cases hok
  · next result hrun =>
    rw [executeWith_of_run (Query.run_eq_of_answers hagree hrun)]
    exact hok

end VerifierExternals

/-- An engine that verifies blocks with execution witnesses. -/
def Externals.withExecutionWitnesses (engine : Externals) (X : VerifierExternals)
    (schedule : List X.StorageResult → List X.StorageResult) : Externals :=
  { engine with
    Proof := ExecutionStateWitness
    verify := X.verify schedule }

/-- The check against the parent makes a verified block one higher than its parent. -/
theorem Externals.verifiesNumber_withExecutionWitnesses {engine : Externals}
    {X : VerifierExternals} {schedule : List X.StorageResult → List X.StorageResult}
    (hparent : ∀ header parent, X.validateHeaderAgainstParent header parent = .ok () →
      header.number = parent.number + 1) :
    (engine.withExecutionWitnesses X schedule).VerifiesNumber := by
  intro provider block parent proof hok
  exact hparent _ _ (VerifierExternals.verify_ok hok).1

end ZkRess
