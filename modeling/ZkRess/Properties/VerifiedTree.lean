import ZkRess.Engine.EngineCases
import ZkRess.Engine.SmallWorld

/-!
# Only verified blocks enter the tree

Where the blocks of the provider come from, over whole runs.  A run is replayed
as a history of small steps (`Run.history`); the invariant says that a stored
block is the genesis block, a finalized one, or marked as verified in the
history, and that the parent of a verified block stays until pruning has passed
the block's own number.

The feed of a run is cut down to what its trace delivers (`FedRun.within`), so
that "finalized" means delivered by a finalized download of this run, and every
pruned number is the number of a block that a fork-choice update of this run
announced as finalized.
-/

namespace ZkRess

open Foundation ConsensusEngine

variable {X : Externals} {feed : Feed X}

/-! ## The invariant of histories -/

/-- **Provenance** of the stored blocks, in a state with this history. -/
structure Provenance (feed : Feed X) (genesis : Block) (marks : List Mark)
    (provider : ChainState X.Proof) : Prop where
  stocked : Stocked feed provider
  origin : ∀ hash block, provider.blocksByHash.get hash = some block →
    block = genesis ∨ (∃ ancestors, (block, ancestors) ∈ feed.finalized) ∨ .verified block ∈ marks
  /-- A verified block above everything pruned has its parent, one below it. -/
  parent : ∀ block, .verified block ∈ marks →
    (∀ number, .pruned number ∈ marks → number < block.number) →
      ∃ parent, provider.sealedHeader block.parentHash = some parent ∧
        block.number = parent.number + 1
  /-- What was pruned was announced as finalized. -/
  pruned : ∀ number, .pruned number ∈ marks → ∃ state ∈ feed.states, ∃ header,
    feed.preimage state.finalizedBlockHash = some header ∧ header.number = number

namespace Provenance

variable {genesis : Block} {marks : List Mark} {provider provider' : ChainState X.Proof}

/-- With the same blocks, and marks that are not about them. -/
private theorem of_blocks (h : Provenance feed genesis marks provider) {marks' : List Mark}
    (hstocked : Stocked feed provider') (hblocks : provider'.blocksByHash = provider.blocksByHash)
    (hverified : ∀ block, .verified block ∈ marks ++ marks' → .verified block ∈ marks)
    (hpruned : ∀ number, .pruned number ∈ marks ++ marks' → .pruned number ∈ marks) :
    Provenance feed genesis (marks ++ marks') provider' where
  stocked := hstocked
  origin hash block hget := by
    rw [hblocks] at hget
    refine (h.origin hash block hget).imp_right fun horigin => horigin.imp_right fun hmem => ?_
    exact List.mem_append_left _ hmem
  parent block hmem habove := by
    unfold ChainState.sealedHeader
    rw [hblocks]
    exact h.parent block (hverified block hmem) fun number hpruned =>
      habove number (List.mem_append_left _ hpruned)
  pruned number hmem := h.pruned number (hpruned number hmem)

/-- A verified block comes in above its parent. -/
private theorem verify (h : Provenance feed genesis marks provider) (hverifies : X.VerifiesNumber)
    {block : Block} {parent : SealedHeader} {proof : X.Proof} (fed : block ∈ feed.blocks)
    (fresh : ¬provider.Contains block.hash)
    (connected : provider.sealedHeader block.parentHash = some parent)
    (passed : X.verify provider block parent proof = .ok ()) :
    Provenance feed genesis (marks ++ [.verified block])
      (provider.insertBlock block (some proof)) := by
  -- the new block replaces none, so that every header stays
  have hkeep : ∀ hash header, provider.sealedHeader hash = some header →
      (provider.insertBlock block (some proof)).sealedHeader hash = some header := by
    intro hash header hstored
    have hne : hash ≠ block.hash := fun heq =>
      fresh (heq ▸ ChainState.contains_iff_sealedHeader.mpr ⟨header, hstored⟩)
    unfold ChainState.sealedHeader
    rwa [ChainState.insertBlock_get, if_neg hne]
  refine ⟨h.stocked.insertBlock (feed.blocks_conform block fed), ?_, ?_, fun number hmem =>
    h.pruned number (by simpa using hmem)⟩
  · intro hash block' hget
    rw [ChainState.insertBlock_get] at hget
    split at hget
    · cases hget
      exact .inr (.inr (List.mem_append_right _ List.mem_cons_self))
    · refine (h.origin hash block' hget).imp_right fun horigin => horigin.imp_right fun hmem => ?_
      exact List.mem_append_left _ hmem
  · intro block' hmem habove
    rcases List.mem_append.mp hmem with hmem | hmem
    · obtain ⟨parent', hstored, hnumber⟩ := h.parent block' hmem fun number hpruned =>
        habove number (List.mem_append_left _ hpruned)
      exact ⟨parent', hkeep _ _ hstored, hnumber⟩
    · cases List.mem_singleton.mp hmem
      exact ⟨parent, hkeep _ _ connected, hverifies _ _ _ _ passed⟩

/-- Pruning takes no parent of a block above the pruned number. -/
private theorem prune (h : Provenance feed genesis marks provider) {finalizedHash : B256}
    {finalized : Block}
    (announced : ∃ state ∈ feed.states, state.finalizedBlockHash = finalizedHash)
    (stored : provider.blocksByHash.get finalizedHash = some finalized) :
    Provenance feed genesis (marks ++ [.pruned finalized.number])
      (provider.removeBlocksOnFinalized finalizedHash) where
  stocked := h.stocked.removeBlocksOnFinalized finalizedHash
  origin hash block hget := by
    have hold := ((ChainState.removeBlocksOnFinalized_get h.stocked.indexed stored).mp hget).1
    refine (h.origin hash block hold).imp_right fun horigin => horigin.imp_right fun hmem => ?_
    exact List.mem_append_left _ hmem
  parent block hmem habove := by
    have hverified : .verified block ∈ marks := by simpa using hmem
    obtain ⟨parent, hparent, hnumber⟩ := h.parent block hverified fun number hpruned =>
      habove number (List.mem_append_left _ hpruned)
    have hlt := habove finalized.number (List.mem_append_right _ List.mem_cons_self)
    obtain ⟨parentBlock, hget, rfl⟩ := ChainState.sealedHeader_eq_some.mp hparent
    refine ⟨parentBlock.toSealedHeader, ChainState.sealedHeader_eq_some.mpr
      ⟨parentBlock, ?_, rfl⟩, hnumber⟩
    exact (ChainState.removeBlocksOnFinalized_get h.stocked.indexed stored).mpr
      ⟨hget, by omega⟩
  pruned number hmem := by
    rcases List.mem_append.mp hmem with hmem | hmem
    · exact h.pruned number hmem
    · cases List.mem_singleton.mp hmem
      obtain ⟨state, hstate, rfl⟩ := announced
      exact ⟨state, hstate, finalized.toSealedHeader, h.stocked.preimage_of_sealedHeader
        (ChainState.sealedHeader_eq_some.mpr ⟨finalized, stored, rfl⟩), rfl⟩

/-- A finalized block comes in, and replaces at most a block with the same
header. -/
private theorem insertFinalized {tree : EngineTree X}
    (h : Provenance feed genesis marks tree.provider) {block : Block}
    {ancestors : List SealedHeader} (fed : (block, ancestors) ∈ feed.finalized) :
    Provenance feed genesis marks
      (ConsensusEngine.insertFinalized tree block ancestors).provider where
  stocked := h.stocked.insertFinalized fed
  origin hash block' hget := by
    rw [insertFinalized_get] at hget
    split at hget
    · cases hget
      exact .inr (.inl ⟨ancestors, fed⟩)
    · exact h.origin hash block' hget
  parent block' hmem habove := by
    obtain ⟨parent, hparent, hnumber⟩ := h.parent block' hmem habove
    refine ⟨parent, ?_, hnumber⟩
    unfold ChainState.sealedHeader
    rw [insertFinalized_get]
    split
    · next heq =>
        have hold := h.stocked.preimage_of_sealedHeader hparent
        have hconf := feed.finalized_conform _ fed
        unfold SealedHeader.Conforms at hconf
        rw [heq, hconf] at hold
        exact hold
    · exact hparent
  pruned := h.pruned

/-- **Every small step keeps the provenance**, and adds its mark. -/
private theorem step (hverifies : X.VerifiesNumber) {tree tree' : EngineTree X}
    {mark : Option Mark} (step : TreeStep feed tree tree' mark)
    (h : Provenance feed genesis marks tree.provider) :
    Provenance feed genesis (marks ++ mark.toList) tree'.provider := by
  have hstocked := h.stocked.step step
  cases step with
  | quiet provider => exact h.of_blocks hstocked (by rw [provider]) (by simp) (by simp)
  | condemn _ _ _ provider => exact h.of_blocks hstocked (by rw [provider]) (by simp) (by simp)
  | inherit _ _ _ provider => exact h.of_blocks hstocked (by rw [provider]) (by simp) (by simp)
  | verify fed _ fresh _ connected passed provider =>
      exact provider ▸ h.verify hverifies fed fresh connected passed
  | advance _ provider =>
      refine h.of_blocks hstocked ?_ (by simp) (by simp)
      rw [provider]
      exact (ChainState.onChainUpdate_sameBlocks _ _ _).blocksByHash
  | prune announced stored _ provider => exact provider ▸ h.prune announced stored

/-- **Provenance over a history.** -/
theorem of_history (hconf : genesis.toSealedHeader.Conforms feed.preimage)
    (hverifies : X.VerifiesNumber) {tree : EngineTree X}
    (history : History feed (launch X genesis).tree marks tree) :
    Provenance feed genesis marks tree.provider := by
  induction history with
  | start =>
      refine ⟨.launch hconf, fun hash block hget => ?_, nofun, nofun⟩
      rw [launch_get] at hget
      split at hget
      · cases hget
        exact .inl rfl
      · cases hget
  | step _ hstep ih => exact ih.step hverifies hstep
  | finalized _ block ancestors fed ih => exact ih.insertFinalized fed

end Provenance

/-- **Verified on the way**: the history passes through a state that has the
block's parent, and in which the verifier accepted the block against it. -/
def VerifiedDuring (feed : Feed X) (start finish : EngineTree X) (block : Block) : Prop :=
  ∃ marks tree parent proof tree' marks', History feed start marks tree ∧
    tree.provider.sealedHeader block.parentHash = some parent ∧
    X.verify tree.provider block parent proof = .ok () ∧
    tree'.provider = tree.provider.insertBlock block (some proof) ∧
    History feed tree' marks' finish

/-- A block marked as verified has been verified on the way. -/
theorem ConsensusEngine.History.verifiedDuring {start finish : EngineTree X} {marks : List Mark}
    (history : History feed start marks finish) {block : Block}
    (hmem : .verified block ∈ marks) : VerifiedDuring feed start finish block := by
  induction history with
  | start => cases hmem
  | @step marks₀ _ _ _ history hstep ih =>
      rcases List.mem_append.mp hmem with hmem | hmem
      · obtain ⟨marks, tree, parent, proof, tree', marks', hbefore, hparent, hpassed, hadded,
          hafter⟩ := ih hmem
        exact ⟨marks, tree, parent, proof, tree', _, hbefore, hparent, hpassed, hadded,
          hafter.step hstep⟩
      · cases hstep with
        | verify _ _ _ _ connected passed provider =>
            cases List.mem_singleton.mp hmem
            exact ⟨marks₀, _, _, _, _, [], history, connected, passed, provider, .start⟩
        | quiet => cases hmem
        | condemn => cases List.mem_singleton.mp hmem
        | inherit => cases List.mem_singleton.mp hmem
        | advance => cases List.mem_singleton.mp hmem
        | prune => cases List.mem_singleton.mp hmem
  | finalized _ block ancestors fed ih =>
      obtain ⟨marks, tree, parent, proof, tree', marks', hbefore, hparent, hpassed, hadded,
        hafter⟩ := ih hmem
      exact ⟨marks, tree, parent, proof, tree', _, hbefore, hparent, hpassed, hadded,
        hafter.finalized block ancestors fed⟩

/-! ## Valid answers -/

/-- **Truthful answers**: every `Valid` sent for a payload between the two states
names a block that the provider has. -/
def TruthfulAnswers (engine engine' : ConsensusEngine X) : Prop :=
  ∃ sent, engine'.responses = engine.responses ++ sent ∧
    ∀ tx status, .payload tx (.ok status) ∈ sent → status.status = .valid →
      ∃ hash, status.latestValidHash = some hash ∧ engine'.tree.provider.Contains hash

/-- One answer, given with the result of a handler, is truthful when the
handler's is. -/
private theorem truthful_of_sent {engine engine' : ConsensusEngine X} {tx : ℕ}
    {result : Except InsertBlockFatalError (TreeOutcome PayloadStatus)}
    (responses : engine'.responses = engine.responses ++ [.payload tx (payloadResult result)])
    (hvalid : ∀ outcome, result = .ok outcome → outcome.outcome.status = .valid →
      ∃ hash, outcome.outcome.latestValidHash = some hash ∧ engine'.tree.provider.Contains hash) :
    TruthfulAnswers engine engine' := by
  refine ⟨_, responses, fun tx' status hmem hstatus => ?_⟩
  have heq := List.mem_singleton.mp hmem
  cases result with
  | error => cases heq
  | ok outcome =>
      cases heq
      exact hvalid outcome rfl hstatus

/-- **Every event answers truthfully.** -/
theorem ConsensusEngine.Step.truthful {engine engine' : ConsensusEngine X}
    {event : Processed X.Proof} (step : Step engine event engine') :
    TruthfulAnswers engine engine' := by
  have hquiet : ∀ {engine₁ engine₂ : ConsensusEngine X}, engine₂.responses = engine₁.responses →
      TruthfulAnswers engine₁ engine₂ := fun heq =>
    ⟨[], by rw [heq, List.append_nil], nofun⟩
  cases step with
  | timeout parked isParked =>
      refine ⟨[.payload parked.tx (.ok ⟨.syncing, none⟩)], rfl, fun tx status hmem hvalid => ?_⟩
      cases List.mem_singleton.mp hmem
      cases hvalid
  | message σ message =>
      cases message with
      | newPayload payload tx =>
          cases onEngineMessage_newPayload σ engine payload tx with
          | parked _ _ _ _ _ responses => exact hquiet responses
          | answered handled tree _ responses =>
              refine truthful_of_sent responses fun outcome heq hvalid => ?_
              subst heq
              obtain ⟨block, -, hhash, hcontains⟩ := EngineTree.onNewPayload_valid handled hvalid
              exact ⟨block.hash, hhash, tree ▸ EngineTree.contains_carryOut.mpr hcontains⟩
      | forkchoiceUpdated state payloadAttrs tx version =>
          cases onEngineMessage_forkchoiceUpdated σ engine state payloadAttrs tx version with
          | answered _ _ _ responses =>
              refine ⟨_, responses, fun tx' status hmem => ?_⟩
              cases List.mem_singleton.mp hmem
  | outcome σ data handled =>
      cases onDownloadOutcome_cases handled with
      | dropped _ same => exact hquiet (by rw [same])
      | stored unlocks =>
          cases unlocks with
          | locked _ same => exact hquiet (by rw [same])
          | handled _ handled tree answers =>
              cases answers with
              | unrelated _ _ responses => exact hquiet responses
              | answered _ _ _ responses =>
                  refine truthful_of_sent responses fun outcome heq hvalid => ?_
                  subst heq
                  obtain ⟨hhash, hcontains⟩ := EngineTree.onDownloadedBlock_valid handled hvalid
                  exact ⟨_, hhash, tree ▸ EngineTree.contains_carryOut.mpr hcontains⟩

/-! ## The property of runs -/

/-- What holds of the tree in every state of a run from the launch on. -/
structure VerifiedTree (feed : Feed X) (genesis : Block) (trace : List (Processed X.Proof))
    (marks : List Mark) (tree : EngineTree X) : Prop where
  history : History (feed.within trace) (launch X genesis).tree marks tree
  /-- Stored blocks are genesis, finalized by a download, or verified. -/
  origin : ∀ hash block, tree.provider.blocksByHash.get hash = some block →
    block = genesis ∨ (∃ ancestors, .outcome (.finalizedBlock block ancestors) ∈ trace) ∨
      .verified block ∈ marks
  verified : ∀ block, .verified block ∈ marks →
    VerifiedDuring (feed.within trace) (launch X genesis).tree tree block
  /-- A verified block above everything pruned so far has its parent. -/
  parentClosed : ∀ block, .verified block ∈ marks →
    (∀ number, .pruned number ∈ marks → number < block.number) →
      tree.provider.Contains block.parentHash
  /-- What was pruned was announced as finalized by a fork-choice update. -/
  pruned : ∀ number, .pruned number ∈ marks → ∃ state payloadAttrs tx version header,
    .message (.forkchoiceUpdated state payloadAttrs tx version) ∈ trace ∧
      feed.preimage state.finalizedBlockHash = some header ∧ header.number = number
  /-- `Valid` answers of the two handlers name a stored block. -/
  newPayload : ∀ σ payload maybeProof outcome tree',
    EngineTree.onNewPayload σ tree payload maybeProof = (.ok outcome, tree') →
      outcome.outcome.status = .valid →
        ∃ hash, outcome.outcome.latestValidHash = some hash ∧ tree'.provider.Contains hash
  downloadedBlock : ∀ σ block proof outcome tree',
    EngineTree.onDownloadedBlock σ tree block proof = (.ok outcome, tree') →
      outcome.outcome.status = .valid →
        ∃ hash, outcome.outcome.latestValidHash = some hash ∧ tree'.provider.Contains hash

/-- **Only verified blocks enter the tree.**  In every state of a run, the stored
blocks have been verified under a stored parent, apart from the genesis block and
the finalized downloads; the tree is parent-closed above what was pruned; and
every `Valid` names a stored block, also the one sent for a parked payload. -/
theorem verifiedTree_of_run {genesis : Block}
    (hconf : genesis.toSealedHeader.Conforms feed.preimage) (hverifies : X.VerifiesNumber)
    {trace : List (Processed X.Proof)} {engine : ConsensusEngine X}
    (run : FedRun feed (launch X genesis) trace engine) :
    (∃ marks, VerifiedTree feed genesis trace marks engine.tree) ∧
      ∀ event engine', Step engine event engine' → TruthfulAnswers engine engine' := by
  refine ⟨?_, fun _ _ step => step.truthful⟩
  obtain ⟨⟨marks, history⟩, -⟩ := Run.history (fun _ _ met => met) run.within (.new _)
  have hconf' : genesis.toSealedHeader.Conforms (feed.within trace).preimage := hconf
  have hprov := Provenance.of_history hconf' hverifies history
  refine ⟨marks, history, fun hash block hget => ?_,
    fun block => history.verifiedDuring, ?_, ?_, ?_,
    ?_⟩
  · refine (hprov.origin hash block hget).imp_right fun horigin => horigin.imp_left ?_
    rintro ⟨ancestors, -, hmem⟩
    exact ⟨ancestors, hmem⟩
  · intro block hmem habove
    obtain ⟨parent, hparent, -⟩ := hprov.parent block hmem habove
    exact ChainState.contains_iff_sealedHeader.mpr ⟨parent, hparent⟩
  · intro number hmem
    obtain ⟨state, ⟨-, payloadAttrs, tx, version, htrace⟩, header, hknown, hnumber⟩ :=
      hprov.pruned number hmem
    exact ⟨state, payloadAttrs, tx, version, header, htrace, hknown, hnumber⟩
  · intro σ payload maybeProof outcome tree' handled hvalid
    obtain ⟨block, -, hhash, hcontains⟩ := EngineTree.onNewPayload_valid handled hvalid
    exact ⟨block.hash, hhash, hcontains⟩
  · intro σ block proof outcome tree' handled hvalid
    obtain ⟨hhash, hcontains⟩ := EngineTree.onDownloadedBlock_valid handled hvalid
    exact ⟨block.hash, hhash, hcontains⟩

namespace SmallWorld

/-- Block 1 is announced, parked, and unlocked by its proof. -/
def unlockedPayload : List (Processed externals.Proof) :=
  [.message (.newPayload (payload (straightBlock 1)) 0), .outcome (.proof 2 true)]

/-- A run that verifies a block. -/
theorem verifiedTree_of_unlockedPayload :
    ∃ engine : ConsensusEngine externals, engine.tree.provider.Contains 2 ∧
      ∃ marks, VerifiedTree straightFeed (straightBlock 0) unlockedPayload marks engine.tree := by
  have hprovides : ∀ event ∈ unlockedPayload, straightFeed.Provides event := by
    simp only [unlockedPayload, List.forall_mem_cons]
    refine ⟨fun block hformed => ?_, trivial, nofun⟩
    cases hformed
    exact ⟨straight_conforms (by decide), rfl⟩
  have hends : (replay ascending unlockedPayload (launch externals (straightBlock 0))).any
      (fun engine => decide (engine.tree.provider.Contains 2)) = true := by decide +kernel
  obtain ⟨engine, hreplay, hstored⟩ := (Option.any_eq_true _ _).mp hends
  exact ⟨engine, of_decide_eq_true hstored, (verifiedTree_of_run (straight_conforms (by decide))
    verifiesNumber (.of_replay (fun _ => hprovides) hreplay)).1⟩

end SmallWorld

end ZkRess
