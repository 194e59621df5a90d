import ZkRess.Properties.PendingProofs

/-!
# Malformed payloads

A payload whose block cannot be rebuilt from it is answered with `Invalid` and
should leave no trace in the engine.  `LeftAlone` is this: nothing changes but
the answers sent and what a lookup may do to the cache of invalid headers, so
that every block delivered later is treated the same (`DeliversAlike`).

The handler takes the proof of the *claimed* hash out of the buffer before it
looks at the payload, and a rejection does not put it back.  Hence the engine is
left alone exactly when no proof is buffered under that hash.
-/

namespace ZkRess

open Foundation

variable {X : Externals}

namespace ConsensusEngine

/-- All that changed is the answers sent and the cache of invalid headers. -/
structure LeftAlone (engine engine' : ConsensusEngine X) : Prop where
  provider : engine'.tree.provider = engine.tree.provider
  canonicalHead : engine'.tree.canonicalHead = engine.tree.canonicalHead
  blockBuffer : engine'.tree.blockBuffer = engine.tree.blockBuffer
  forkchoiceStateTracker :
    engine'.tree.forkchoiceStateTracker = engine.tree.forkchoiceStateTracker
  events : engine'.tree.events = engine.tree.events
  downloader : engine'.downloader = engine.downloader
  parkedPayload : engine'.parkedPayload = engine.parkedPayload

/-- A block delivered to either tree finds the same proof, gets the same result,
and leaves the same provider and buffer. -/
def DeliversAlike (tree tree' : EngineTree X) : Prop :=
  ∀ block : Block,
    tree'.blockBuffer.removeProof block.hash = tree.blockBuffer.removeProof block.hash ∧
    ∀ maybeProof,
      (tree'.insertBlock block maybeProof).1 = (tree.insertBlock block maybeProof).1 ∧
      (tree'.insertBlock block maybeProof).2.provider
        = (tree.insertBlock block maybeProof).2.provider ∧
      (tree'.insertBlock block maybeProof).2.blockBuffer
        = (tree.insertBlock block maybeProof).2.blockBuffer

/-- Inserting a block neither reads nor writes the cache of invalid headers. -/
theorem insertBlock_invalidHeaders (tree : EngineTree X)
    (invalidHeaders : X.invalidHeaderCache.State) (block : Block) (maybeProof : Option X.Proof) :
    { tree with invalidHeaders }.insertBlock block maybeProof
      = ((tree.insertBlock block maybeProof).1,
          { (tree.insertBlock block maybeProof).2 with invalidHeaders }) := by
  unfold EngineTree.insertBlock
  by_cases hknown : (tree.provider.sealedHeader block.hash).isSome
  · rw [if_pos hknown, if_pos hknown]
  · rw [if_neg hknown, if_neg hknown]
    cases EngineTree.validateBlock X block with
    | error error => rfl
    | ok u =>
        cases tree.provider.sealedHeader block.parentHash with
        | none => rfl
        | some parent =>
            cases maybeProof with
            | none => rfl
            | some proof =>
                simp only
                cases X.verify tree.provider block parent proof with
                | error error => rfl
                | ok u => rfl

theorem LeftAlone.deliversAlike {engine engine' : ConsensusEngine X}
    (h : LeftAlone engine engine') : DeliversAlike engine.tree engine'.tree := by
  have htree : engine'.tree
      = { engine.tree with invalidHeaders := engine'.tree.invalidHeaders } := by
    obtain ⟨provider, canonicalHead, blockBuffer, tracker, events, -, -⟩ := h
    cases htree : engine'.tree
    rw [htree] at provider canonicalHead blockBuffer tracker events
    subst provider canonicalHead blockBuffer tracker events
    rfl
  intro block
  rw [h.blockBuffer]
  refine ⟨rfl, fun maybeProof => ?_⟩
  rw [htree, insertBlock_invalidHeaders]
  exact ⟨rfl, rfl, rfl⟩

/-- What a malformed payload does: the proof of the hash it claims is gone, the
cache of invalid headers may have been looked up, and the payload is answered. -/
theorem onEngineMessage_malformed (σ : SetOrder B256) (engine : ConsensusEngine X)
    {payload : ExecutionData} (tx : ℕ) {error : PayloadError}
    (hmalformed : X.ensureWellFormedPayload payload = .error error) :
    ∃ latestValidHash tree', EngineTree.Peeks { engine.tree with
        blockBuffer := (engine.tree.blockBuffer.removeProof payload.blockHash).2 } tree' ∧
      engine.onEngineMessage σ (.newPayload payload tx)
        = { engine with tree := tree' }.sendPayload tx
            (.ok ⟨.invalid error.message, latestValidHash⟩) := by
  obtain ⟨latestValidHash, tree', hpeeks, hcall⟩ := EngineTree.onNewPayload_malformed σ
    { engine.tree with
      blockBuffer := (engine.tree.blockBuffer.removeProof payload.blockHash).2 }
    (engine.tree.blockBuffer.removeProof payload.blockHash).1 hmalformed
  refine ⟨latestValidHash, tree', hpeeks, ?_⟩
  simp only [onEngineMessage]
  rw [hcall]
  rfl

/-- **Malformed payloads.**  The engine is left alone, and treats every later
block alike, if and only if no proof is buffered under the hash the payload
claims. -/
theorem leftAlone_iff_unproven (σ : SetOrder B256) (engine : ConsensusEngine X)
    {payload : ExecutionData} (tx : ℕ) {error : PayloadError}
    (hmalformed : X.ensureWellFormedPayload payload = .error error) :
    (LeftAlone engine (engine.onEngineMessage σ (.newPayload payload tx)) ∧
        DeliversAlike engine.tree (engine.onEngineMessage σ (.newPayload payload tx)).tree) ↔
      engine.tree.blockBuffer.proofs.get payload.blockHash = none := by
  obtain ⟨latestValidHash, tree', hpeeks, hafter⟩ :=
    onEngineMessage_malformed σ engine tx hmalformed
  rw [hafter]
  constructor
  · intro h
    have hproofs := congrArg BlockBuffer.proofs (hpeeks.blockBuffer.symm.trans h.1.blockBuffer)
    rw [← hproofs]
    exact FiniteMap.get_erase_self _ _
  · intro hproof
    -- erasing what is not there changes nothing
    have hbuffer : (engine.tree.blockBuffer.removeProof payload.blockHash).2
        = engine.tree.blockBuffer := by
      unfold BlockBuffer.removeProof
      rw [FiniteMap.erase_of_get_eq_none hproof]
    rw [hbuffer] at hpeeks
    have halone : LeftAlone engine ({ engine with tree := tree' }.sendPayload tx
        (.ok ⟨.invalid error.message, latestValidHash⟩)) :=
      { provider := hpeeks.provider
        canonicalHead := hpeeks.canonicalHead
        blockBuffer := hpeeks.blockBuffer
        forkchoiceStateTracker := hpeeks.forkchoiceStateTracker
        events := by
          show tree'.events = engine.tree.events
          rw [hpeeks.eq]
        downloader := rfl
        parkedPayload := rfl }
    exact ⟨halone, halone.deliversAlike⟩

end ConsensusEngine

namespace SmallWorld

open ConsensusEngine

/-- A payload that claims the hash of block 3 and has another body. -/
def forgedPayload : ExecutionData := { payload (block 3 2 2) with encoded := [1] }

theorem forgedPayload_malformed : strictPayloads.ensureWellFormedPayload forgedPayload
    = .error ⟨true, false, "block hash mismatch"⟩ := rfl

theorem leftAlone_of_launch :
    LeftAlone (launch strictPayloads (block 1 0 0))
        ((launch strictPayloads (block 1 0 0)).onEngineMessage ascending
          (.newPayload forgedPayload 0)) ∧
      DeliversAlike (launch strictPayloads (block 1 0 0)).tree
        ((launch strictPayloads (block 1 0 0)).onEngineMessage ascending
          (.newPayload forgedPayload 0)).tree :=
  (leftAlone_iff_unproven ascending _ 0 forgedPayload_malformed).mpr
    (FiniteMap.get_empty _)

/-- The proof of block 3 has been downloaded. -/
def proofArrived : List (Processed strictPayloads.Proof) := [.outcome (.proof 3 true)]

/-- **A malformed payload takes a proof out of the buffer** in a state that can be
reached. -/
theorem forged_payload_disturbs :
    ¬∀ trace engine, Run (fun _ event => strictFeed.Provides event)
      (launch strictPayloads (block 1 0 0)) trace engine →
      ∀ (σ : SetOrder B256) (payload : ExecutionData) (tx : ℕ) (error : PayloadError),
        strictPayloads.ensureWellFormedPayload payload = .error error →
          LeftAlone engine (engine.onEngineMessage σ (.newPayload payload tx)) := by
  intro hall
  have hends : (replay ascending proofArrived (launch strictPayloads (block 1 0 0))).any
      (fun engine => (engine.tree.blockBuffer.proofs.get 3).isSome) = true := by decide +kernel
  obtain ⟨engine, hreplay, hproof⟩ := (Option.any_eq_true _ _).mp hends
  have hprovides : ∀ engine : ConsensusEngine strictPayloads, ∀ event ∈ proofArrived,
      strictFeed.Provides event := by
    intro _ event hmem
    rw [List.mem_singleton.mp hmem]
    exact Set.mem_univ _
  have halone := hall proofArrived engine (.of_replay hprovides hreplay) ascending forgedPayload 0 _
    forgedPayload_malformed
  obtain ⟨latestValidHash, tree', hpeeks, hafter⟩ :=
    onEngineMessage_malformed ascending engine 0 forgedPayload_malformed
  rw [hafter] at halone
  have hproofs := congrArg BlockBuffer.proofs (hpeeks.blockBuffer.symm.trans halone.blockBuffer)
  rw [← hproofs] at hproof
  simp [forgedPayload, payload, block, header, BlockBuffer.removeProof] at hproof

end SmallWorld

end ZkRess
