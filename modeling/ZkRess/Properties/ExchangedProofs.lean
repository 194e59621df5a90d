import ZkRess.Network.ProofExchange
import ZkRess.Properties.PortableProofs
import ZkRess.Properties.ServedProofs
import ZkRess.Properties.StatelessVerification

/-!
# Nodes that exchange proofs do each other no harm

In a network of nodes, with outsiders that send anything and responses that are delayed,
reordered and repeated: no proof is made up by the nodes, and what a node serves makes no other
node reject a block.  A block is called invalid for a proof only where the proof comes from an
outsider.
-/

namespace ZkRess

open Foundation ConsensusEngine ProofNetwork VerifierExternals

/-- **Bodies**: a header commits to the body that passes with it. -/
def VerifierExternals.BindsBodies (X : VerifierExternals) : Prop :=
  ∀ block block' : Block, X.validateBlockPreExecution block = .ok () →
    X.validateBlockPreExecution block' = .ok () →
      block.toSealedHeader = block'.toSealedHeader → block = block'

/-- **Internal errors**: a failure of the execution that is not the block's is fatal. -/
def Externals.FailsInternally (engine : Externals) : Prop :=
  ∀ error, ∃ fatal, engine.ensureValidationError
    (EngineTree.insertErrorKind (.execution (.internal error))) = .error fatal

section Networks

variable {ι : Type} {X : VerifierExternals} {engine : Externals}
  {schedule : List X.StorageResult → List X.StorageResult}
  {codec : ProofCodec ExecutionStateWitness}
  {feed : ι → Feed (engine.withExecutionWitnesses X schedule)} {genesis : ι → Block}
  {preimage : Preimage}

/-- What the nodes share: the hash function, and a chain each. -/
structure SharesHashes (feed : ι → Feed (engine.withExecutionWitnesses X schedule))
    (genesis : ι → Block) (preimage : Preimage) : Prop where
  preimage : ∀ i, (feed i).preimage = preimage
  genesis : ∀ i, (feed i).IsGenesis (genesis i)
  linked : ∀ i, (feed i).Linked

/-- Each node is in a run of its own, with proofs that outsiders sent; and each response of a
node was checked by it. -/
private structure Exchanged (codec : ProofCodec ExecutionStateWitness)
    (feed : ι → Feed (engine.withExecutionWitnesses X schedule)) (genesis : ι → Block)
    (preimage : Preimage) (net : ProofNetwork ι (engine.withExecutionWitnesses X schedule)) :
    Prop where
  runs : ∀ i, ∃ trace, OrderedRun (feed i) (ConsensusEngine.launch _ (genesis i)) trace
      (net.nodes i) ∧
    ∀ hash proof, .outcome (.proof hash proof) ∈ trace → Originated codec net.sent hash proof
  served : ∀ message ∈ net.sent, message.sender ≠ none → ∀ proof,
    FetchProofFuture.onResponse codec (.ok message.bytes) = some proof →
      Originated codec net.sent message.blockHash proof ∧ ∃ block,
        block.hash = message.blockHash ∧ block.toSealedHeader.Conforms preimage ∧
          CheckedProof X schedule preimage block proof

namespace Exchanged

variable {net net' : ProofNetwork ι (engine.withExecutionWitnesses X schedule)}

/-- What a node stores was originated. -/
private theorem originated (hshares : SharesHashes feed genesis preimage)
    (h : Exchanged codec feed genesis preimage net) {i : ι} {hash : B256}
    {proof : ExecutionStateWitness}
    (hstored : (net.nodes i).tree.provider.proof hash = some proof) :
    Originated codec net.sent hash proof := by
  obtain ⟨trace, run, horigin⟩ := h.runs i
  have hfed : FedRun (feed i) _ trace (net.nodes i) := run.mono fun _ _ _ met => met.1
  obtain ⟨⟨-, hdelivered⟩, -⟩ :=
    (Proven.of_run (hshares.genesis i).conforms hfed).proofs hash proof hstored
  exact horigin hash proof hdelivered

/-- One more response keeps everything. -/
private theorem send (h : Exchanged codec feed genesis preimage net) {message : SentProof ι}
    (hserved : message.sender ≠ none → ∀ proof,
      FetchProofFuture.onResponse codec (.ok message.bytes) = some proof →
        Originated codec net.sent message.blockHash proof ∧ ∃ block,
          block.hash = message.blockHash ∧ block.toSealedHeader.Conforms preimage ∧
            CheckedProof X schedule preimage block proof) :
    Exchanged codec feed genesis preimage { net with sent := net.sent ++ [message] } where
  runs i := by
    obtain ⟨trace, run, horigin⟩ := h.runs i
    exact ⟨trace, run, fun hash proof hmem => (horigin hash proof hmem).append _⟩
  served message' hmem hnode proof hread := by
    rcases List.mem_append.mp hmem with hold | hnew
    · obtain ⟨horigin, hchecked⟩ := h.served message' hold hnode proof hread
      exact ⟨horigin.append _, hchecked⟩
    · obtain rfl := List.mem_singleton.mp hnew
      obtain ⟨horigin, hchecked⟩ := hserved hnode proof hread
      exact ⟨horigin.append _, hchecked⟩

/-- **Every step keeps** the nodes in runs of their own, and their responses checked. -/
private theorem step [DecidableEq ι] (hshares : SharesHashes feed genesis preimage) (hcodec : codec.Lawful)
    (hverifies : (engine.withExecutionWitnesses X schedule).VerifiesNumber)
    (h : Exchanged codec feed genesis preimage net) (exchange : Exchange codec feed net net') :
    Exchanged codec feed genesis preimage net' := by
  cases exchange with
  | serve i blockHash =>
      refine h.send fun _ proof hread => ?_
      obtain ⟨bytes, hbytes, hdecode, -⟩ := FetchProofFuture.onResponse_eq_some.mp hread
      obtain rfl := Except.ok.inj hbytes
      have hstored := (ChainState.decode_encodedProof hcodec).mp hdecode
      obtain ⟨trace, run, -⟩ := h.runs i
      obtain ⟨block, hhash, hblock, hchecked⟩ := checkedProofs_of_orderedRun (hshares.genesis i)
        (hshares.linked i) hverifies run blockHash proof hstored
      have hconf := (feed i).blocks_conform block hblock
      rw [hshares.preimage] at hconf hchecked
      exact ⟨h.originated hshares hstored, block, hhash, hconf, hchecked⟩
  | outside blockHash bytes => exact h.send fun hnode => absurd rfl hnode
  | polled i downloader =>
      refine ⟨fun j => ?_, h.served⟩
      obtain ⟨trace, run, horigin⟩ := h.runs j
      refine ⟨trace, ?_, horigin⟩
      by_cases heq : j = i
      · subst heq
        show OrderedRun _ _ _ (Function.update net.nodes j _ j)
        rw [Function.update_self]
        exact run.polled downloader
      · show OrderedRun _ _ _ (Function.update net.nodes i _ j)
        rw [Function.update_of_ne heq]
        exact run
  | @process i event engine' provided ordered received step =>
      refine ⟨fun j => ?_, h.served⟩
      obtain ⟨trace, run, horigin⟩ := h.runs j
      by_cases heq : j = i
      · subst heq
        refine ⟨trace ++ [event], ?_, fun hash proof hmem => ?_⟩
        · show OrderedRun _ _ _ (Function.update net.nodes j _ j)
          rw [Function.update_self]
          exact run.step ⟨provided, ordered⟩ step
        · rcases List.mem_append.mp hmem with hold | hnew
          · exact horigin hash proof hold
          · obtain ⟨message, hsent, rfl, hread⟩ :=
              received hash proof (List.mem_singleton.mp hnew).symm
            cases hsender : message.sender with
            | none => exact ⟨message, hsent, hsender, rfl, hread⟩
            | some k =>
                have hnode : message.sender ≠ none := hsender ▸ Option.some_ne_none k
                exact (h.served message hsent hnode proof hread).1
      · refine ⟨trace, ?_, horigin⟩
        show OrderedRun _ _ _ (Function.update net.nodes i _ j)
        rw [Function.update_of_ne heq]
        exact run

private theorem of_reachable [DecidableEq ι] (hshares : SharesHashes feed genesis preimage)
    (hcodec : codec.Lawful)
    (hverifies : (engine.withExecutionWitnesses X schedule).VerifiesNumber)
    (hreachable : Reachable codec feed genesis net) :
    Exchanged codec feed genesis preimage net := by
  induction hreachable with
  | refl => exact ⟨fun i => ⟨[], .start, nofun⟩, nofun⟩
  | tail _ exchange ih => exact ih.step hshares hcodec hverifies exchange

end Exchanged

/-- **Harmless exchange**, in a state of the network. -/
structure HarmlessExchange (codec : ProofCodec ExecutionStateWitness)
    (feed : ι → Feed (engine.withExecutionWitnesses X schedule)) (preimage : Preimage)
    (net : ProofNetwork ι (engine.withExecutionWitnesses X schedule)) : Prop where
  /-- Every proof a node stores was sent by an outsider, for the block it is stored for. -/
  originated : ∀ i hash proof, (net.nodes i).tree.provider.proof hash = some proof →
    Originated codec net.sent hash proof
  /-- A proof that a node has sent is accepted by every node that has the parent of its block,
  unless an ancestor is not found. -/
  accepted : ∀ message ∈ net.sent, message.sender ≠ none → ∀ proof,
    FetchProofFuture.onResponse codec (.ok message.bytes) = some proof →
      ∀ i, ∀ block ∈ (feed i).blocks, block.hash = message.blockHash →
        X.validateBlockPreExecution block = .ok () → ∀ parent,
          (net.nodes i).tree.provider.sealedHeader block.parentHash = some parent →
            AcceptsUnlessUnknown X schedule preimage (net.nodes i).tree.provider block parent
              proof
  /-- In no case is there a validation error, for which the block would be called invalid. -/
  spared : ∀ message ∈ net.sent, message.sender ≠ none → ∀ proof,
    FetchProofFuture.onResponse codec (.ok message.bytes) = some proof →
      ∀ i, ∀ block ∈ (feed i).blocks, block.hash = message.blockHash →
        X.validateBlockPreExecution block = .ok () → ∀ parent,
          (net.nodes i).tree.provider.sealedHeader block.parentHash = some parent → ∀ error,
            X.verify schedule (net.nodes i).tree.provider block parent proof = .error error →
              ∃ fatal, engine.ensureValidationError (EngineTree.insertErrorKind error)
                = .error fatal

end Networks

namespace SmallTries

/-! ### Two nodes -/

/-- Byte strings with their lengths. -/
def encodeStrings (strings : List Bytes) : Bytes :=
  encodeNat strings.length ++ strings.flatMap fun string => encodeNat string.length ++ string

/-- Read a number of byte strings, and what follows them. -/
def decodeStrings : ℕ → Bytes → List Bytes × Bytes
  | 0, bytes => ([], bytes)
  | n + 1, bytes =>
      let (length, rest) := decodeNat bytes
      let (strings, rest') := decodeStrings n (rest.drop length)
      (rest.take length :: strings, rest')

theorem decodeStrings_encodeStrings (strings : List Bytes) (rest : Bytes) :
    decodeStrings strings.length
        ((strings.flatMap fun string => encodeNat string.length ++ string) ++ rest)
      = (strings, rest) := by
  induction strings with
  | nil => rfl
  | cons string strings ih =>
      rw [List.length_cons, decodeStrings, List.flatMap_cons, List.append_assoc, List.append_assoc,
        decodeNat_encodeNat]
      simp only [List.drop_left, List.take_left, ih]

/-- An encoding of witnesses that starts with a byte, so that nothing is read from nothing. -/
def witnessCodec : ProofCodec ExecutionStateWitness where
  encode proof := 1 :: (encodeStrings proof.state ++ encodeStrings proof.bytecodes)
  decode
    | [] => .error "input too short"
    | _ :: bytes =>
        let (stateLength, bytes) := decodeNat bytes
        let (state, bytes) := decodeStrings stateLength bytes
        let (bytecodesLength, bytes) := decodeNat bytes
        .ok ⟨state, (decodeStrings bytecodesLength bytes).1⟩
  isEmpty proof := proof.state.isEmpty && proof.bytecodes.isEmpty

theorem witnessCodec_lawful : witnessCodec.Lawful where
  decode_encode proof := by
    have hlast := decodeStrings_encodeStrings proof.bytecodes []
    rw [List.append_nil] at hlast
    simp only [witnessCodec, encodeStrings, List.append_assoc, decodeNat_encodeNat,
      decodeStrings_encodeStrings, hlast]
  decode_nil := ⟨_, rfl⟩

/-- Blocks without a body. -/
def bareExternals : VerifierExternals :=
  { touchExternals with
    validateBlockPreExecution := fun block =>
      if block.body = [] then .ok () else .error (.other "body mismatch") }

theorem bareExternals_bindsBodies : bareExternals.BindsBodies := by
  have hbare : ∀ block : Block, bareExternals.validateBlockPreExecution block = .ok () →
      block.body = [] := by
    intro block hok
    by_contra hbody
    replace hok : (if block.body = [] then Except.ok ()
      else .error (ConsensusError.other "body mismatch")) = .ok () := hok
    rw [if_neg hbody] at hok
    cases hok
  rintro ⟨header, body⟩ ⟨header', body'⟩ hok hok' hsame
  obtain rfl : header = header' := hsame
  obtain rfl : body = [] := hbare _ hok
  obtain rfl : body' = [] := hbare _ hok'
  rfl

/-- The engine of the two nodes. -/
def bareEngine : Externals := SmallWorld.externals.withExecutionWitnesses bareExternals id

/-- The blocks 1 and 2, and any proofs. -/
def bareFeed : Feed bareEngine where
  preimage := SmallWorld.preimageOf [touchParent, (touchBlock 2).toSealedHeader]
  preimage_keyed := SmallWorld.preimageOf_keyed _
  blocks := {block | block.toSealedHeader.Conforms
    (SmallWorld.preimageOf [touchParent, (touchBlock 2).toSealedHeader])}
  proofs _ := Set.univ
  finalized := ∅
  states := Set.univ
  blocks_conform _ hblock := hblock
  finalized_conform _ hpair := hpair.elim
  ancestors_conform _ hpair := hpair.elim

def bareGenesis : Block := ⟨touchParent, []⟩

theorem bareFeed_shares : SharesHashes (fun _ : Bool => bareFeed) (fun _ => bareGenesis)
    bareFeed.preimage where
  preimage _ := rfl
  genesis _ := ⟨by decide +kernel, rfl, by decide +kernel⟩
  linked _ _ hpair := hpair.elim

theorem known_touchBlock : touchBlock 2 ∈ bareFeed.blocks := by
  show bareFeed.preimage 2 = some (touchBlock 2).toSealedHeader
  decide +kernel

end SmallTries

end ZkRess
