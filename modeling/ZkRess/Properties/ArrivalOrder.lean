import ZkRess.Engine.BufferCalls
import ZkRess.Engine.SmallWorld

/-!
# The order in which a block and its proof arrive

A block comes by a new payload or as a download, its proof as another download,
and either may be first.  With the proof first, the payload takes it along and is
verified at once.  With the payload first, the block waits in the buffer, is
taken out again when the proof arrives, and goes through the handler of
downloaded blocks instead.

`proofOrderIrrelevant_iff` says when the two orders cannot be told apart
afterwards: if the block passes the stateless consensus checks.  A block that
fails them is never buffered, so a proof that arrives after it stays in the
buffer, where one that arrives before it is used up.  A full block and its proof
as two downloads may come in any order.
-/

namespace ZkRess

open Foundation

variable {X : Externals}

/-! ## What can be undone in the buffer -/

namespace BlockBuffer

variable {P : Type} {buffer : BlockBuffer P}

/-- A proof that is not there cannot be taken out. -/
theorem removeProof_of_get_none {hash : B256} (h : buffer.proofs.get hash = none) :
    buffer.removeProof hash = (none, buffer) := by
  unfold removeProof
  rw [h, FiniteMap.erase_of_get_eq_none h]

/-- A new proof can be taken out again. -/
theorem removeProof_insertProof {hash : B256} (h : buffer.proofs.get hash = none) (proof : P) :
    (buffer.insertProof hash proof).removeProof hash = (some proof, buffer) := by
  unfold removeProof insertProof
  simp only [FiniteMap.get_insert, if_true, FiniteMap.erase_insert_of_get_eq_none h]

/-- A new block and its new proof can be taken out again. -/
theorem drop_insertProof_insertBlock {preimage : Preimage} (h : buffer.Sound preimage)
    {block : Block} (hblock : buffer.blocks.get block.hash = none)
    (hproof : buffer.proofs.get block.hash = none)
    (hroom : buffer.lru.keys.length < buffer.lru.maxLength) (proof : P) :
    ((buffer.insertBlock block).insertProof block.hash proof).drop block.hash block = buffer := by
  have hunlisted : block.hash ∉ SetMap.members buffer.parentToChild block.parentHash := by
    intro hmem
    obtain ⟨old, hold, -⟩ := h.agrees.child _ _ hmem
    cases hblock.symm.trans hold
  have hunnumbered : block.hash ∉ SetMap.members buffer.earliestBlocks block.number := by
    intro hmem
    obtain ⟨old, hold, -⟩ := h.agrees.earliest _ _ hmem
    cases hblock.symm.trans hold
  have huntracked : block.hash ∉ buffer.lru.keys := by
    intro hmem
    obtain ⟨old, hold⟩ := (h.agrees.tracked _).mp hmem
    cases hblock.symm.trans hold
  rw [insertBlock_of_room (.inr hroom)]
  unfold drop insertProof file
  simp only [KeyedMap.erase_insert_of_get_eq_none hblock,
    FiniteMap.erase_insert_of_get_eq_none hproof, h.children.removeMember_addMember hunlisted,
    h.numbers.removeMember_addMember hunnumbered, Lru.remove_getOrInsert huntracked hroom]

/-- With room for the block, block and proof may be stored in any order. -/
theorem insertBlock_insertProof {block : Block}
    (hroom : buffer.lru.keys.length < buffer.lru.maxLength) (proof : P) :
    (buffer.insertProof block.hash proof).insertBlock block
      = (buffer.insertBlock block).insertProof block.hash proof := by
  have hroom' : (buffer.insertProof block.hash proof).lru.keys.length
      < (buffer.insertProof block.hash proof).lru.maxLength := hroom
  rw [insertBlock_of_room (.inr hroom), insertBlock_of_room (.inr hroom')]
  rfl

end BlockBuffer

/-- A lookup of a hash without an entry leaves the cache as it is. -/
def InvalidHeaderCache.Steady (cache : InvalidHeaderCache) : Prop :=
  ∀ s hash, (cache.contents s).get hash = none → cache.get s hash = (none, s)

/-! ## The two handlers -/

namespace EngineTree

variable {tree : EngineTree X} {block : Block}

/-- The hash has no entry in the invalid cache. -/
def Unmarked (tree : EngineTree X) (hash : B256) : Prop :=
  ¬X.invalidHeaderCache.Cached tree.invalidHeaders hash

theorem checkInvalidAncestorWithHead_of_unmarked (hsteady : X.invalidHeaderCache.Steady)
    {check : B256} (h : tree.Unmarked check) (head : B256) :
    tree.checkInvalidAncestorWithHead check head = (none, tree) := by
  have hnone : (X.invalidHeaderCache.contents tree.invalidHeaders).get check = none := by
    cases hget : (X.invalidHeaderCache.contents tree.invalidHeaders).get check with
    | none => rfl
    | some entry => exact absurd ⟨entry, hget⟩ h
  unfold checkInvalidAncestorWithHead
  rw [hsteady _ _ hnone]

/-- A block that is not buffered has no buffered ancestor to be checked under. -/
theorem lowestBufferedAncestorOr_of_get_none (h : tree.blockBuffer.blocks.get block.hash = none) :
    tree.lowestBufferedAncestorOr block.hash = block.hash := by
  unfold lowestBufferedAncestorOr BlockBuffer.lowestAncestor
  rw [h]
  rfl

theorem payloadCheck_of_get_none (h : tree.blockBuffer.blocks.get block.hash = none) :
    tree.payloadCheck block = block.parentHash := by
  unfold payloadCheck
  rw [if_pos (lowestBufferedAncestorOr_of_get_none h)]

/-- Connecting descendants does not touch the sync target. -/
theorem tryConnectBufferedBlocks_isSyncTargetHead (σ : SetOrder B256) (tree : EngineTree X)
    (parentHash hash : B256) :
    (tryConnectBufferedBlocks σ tree parentHash).2.isSyncTargetHead hash
      = tree.isSyncTargetHead hash := by
  unfold isSyncTargetHead
  rw [tryConnectBufferedBlocks_forkchoiceStateTracker]

/-- A block that comes with its proof does not ask for it. -/
theorem Handles.proof_not_requested {σ : SetOrder B256} {tree' : EngineTree X} {check : B256}
    {proof : X.Proof} {outcome : TreeOutcome PayloadStatus}
    (h : Handles σ tree check block (some proof) (.ok outcome) tree') (blockHash : B256) :
    outcome.event ≠ some (.downloadProof blockHash) := by
  have htarget : ∀ tree₁ : EngineTree X,
      tree₁.syncTargetEvent block.hash ≠ some (.downloadProof blockHash) := by
    intro tree₁ hevent
    unfold syncTargetEvent at hevent
    split at hevent <;> cases hevent
  cases h with
  | invalidAncestor | seen | failed => exact nofun
  | connected _ _ _ _ event_eq =>
      rcases event_eq with rfl | rfl
      · exact htarget _
      · exact htarget _
  | disconnected => exact nofun
  | noProof _ inserts =>
      cases inserts with
      | noProof _ _ _ unproved => cases unproved

/-- A block that passes the stateless checks and has no stored parent waits. -/
theorem Handles.syncing_of_orphan (hsteady : X.invalidHeaderCache.Steady) {σ : SetOrder B256}
    {tree' : EngineTree X} {check : B256} {maybeProof : Option X.Proof}
    {result : Except InsertBlockFatalError (TreeOutcome PayloadStatus)}
    (h : Handles σ tree check block maybeProof result tree') (hunmarked : tree.Unmarked check)
    (hfresh : ¬tree.provider.Contains block.hash) (hvalid : validateBlock X block = .ok ())
    (horphan : ¬tree.provider.Contains block.parentHash) :
    ConsensusEngine.payloadResult result = .ok ⟨.syncing, none⟩ := by
  have hinserts : ∀ {tree₁ tree₂ r}, Checks tree check block.hash none tree₁ →
      Inserts tree₁ block maybeProof r tree₂ → ∃ head missing,
        r = .ok (.inserted (.disconnected head missing)) := by
    intro tree₁ tree₂ r checks inserts
    have hprovider := checks.provider
    cases inserts with
    | alreadySeen known => exact absurd (hprovider ▸ known) hfresh
    | malformed _ failed => cases hvalid.symm.trans failed
    | disconnected => exact ⟨_, _, rfl⟩
    | noProof _ _ connected => exact absurd (hprovider ▸ connected) horphan
    | rejected _ _ connected | verified _ _ connected =>
        rw [hprovider] at connected
        exact absurd (ChainState.contains_iff_sealedHeader.mpr ⟨_, connected⟩) horphan
  cases h with
  | invalidAncestor checks =>
      cases checks with
      | invalid _ found =>
          cases hget : (X.invalidHeaderCache.contents tree.invalidHeaders).get check with
          | some entry => exact absurd ⟨entry, hget⟩ hunmarked
          | none =>
              rw [hsteady _ _ hget] at found
              cases found
  | disconnected => rfl
  | noProof => rfl
  | connected checks inserts isIn =>
      obtain ⟨_, _, heq⟩ := hinserts checks inserts
      cases heq
      simp at isIn
  | connectFailed checks inserts isIn =>
      obtain ⟨_, _, heq⟩ := hinserts checks inserts
      cases heq
      simp at isIn
  | seen checks inserts | failed checks inserts | failedFatally checks inserts =>
      obtain ⟨_, _, heq⟩ := hinserts checks inserts
      cases heq

variable {payload : ExecutionData} (hsteady : X.invalidHeaderCache.Steady)
  (hformed : X.ensureWellFormedPayload payload = .ok block)
  (hfresh : ¬tree.provider.Contains block.hash)
  (hbuffered : tree.blockBuffer.blocks.get block.hash = none)
  (hunmarked : tree.Unmarked block.hash) (hunmarkedParent : tree.Unmarked block.parentHash)

include hsteady hformed hfresh hbuffered hunmarked hunmarkedParent

/-- **With its proof, a new payload is handled like a download**, if its block is
neither stored nor buffered. -/
theorem onNewPayload_eq_onDownloadedBlock (σ : SetOrder B256) (proof : X.Proof) :
    onNewPayload σ tree payload (some proof) = onDownloadedBlock σ tree block proof := by
  have hcheck := checkInvalidAncestorWithHead_of_unmarked hsteady hunmarkedParent block.hash
  have hcheck' := checkInvalidAncestorWithHead_of_unmarked hsteady hunmarked block.hash
  have hinserts := insertBlock_cases tree block (some proof)
  unfold onNewPayload onDownloadedBlock
  rw [hformed]
  simp only
  rw [show (if tree.lowestBufferedAncestorOr block.hash = block.hash then block.parentHash
    else tree.lowestBufferedAncestorOr block.hash) = tree.payloadCheck block from rfl,
    payloadCheck_of_get_none hbuffered, lowestBufferedAncestorOr_of_get_none hbuffered, hcheck,
    hcheck']
  simp only
  generalize tree.insertBlock block (some proof) = inserted at hinserts ⊢
  obtain ⟨result, tree₁⟩ := inserted
  match result with
  | .error kind => rfl
  | .ok (.inserted (.disconnected _ _)) => rfl
  | .ok (.inserted .noProof) => rfl
  | .ok .alreadySeen =>
      cases hinserts with
      | alreadySeen known => exact absurd known hfresh
  | .ok (.inserted .valid) =>
      simp only
      have htarget := tryConnectBufferedBlocks_isSyncTargetHead σ tree₁ block.hash block.hash
      generalize tryConnectBufferedBlocks σ tree₁ block.hash = connected at htarget ⊢
      obtain ⟨result, tree₂⟩ := connected
      cases result with
      | error fatal => rfl
      | ok u =>
          simp only at htarget ⊢
          rw [htarget]

omit hunmarked in
/-- **Without its proof it is buffered**, if it passes the stateless checks. -/
theorem onNewPayload_buffers (hvalid : validateBlock X block = .ok ()) (σ : SetOrder B256) :
    onNewPayload σ tree payload none
      = (.ok ⟨⟨.syncing, none⟩, some (if tree.provider.Contains block.parentHash then
            .downloadProof block.hash
          else .downloadBlock (tree.missingAncestor block).hash)⟩,
        { tree with blockBuffer := tree.blockBuffer.insertBlock block }) := by
  have hcheck := checkInvalidAncestorWithHead_of_unmarked hsteady hunmarkedParent block.hash
  have hinserts := insertBlock_cases tree block none
  unfold onNewPayload
  rw [hformed]
  simp only
  rw [show (if tree.lowestBufferedAncestorOr block.hash = block.hash then block.parentHash
    else tree.lowestBufferedAncestorOr block.hash) = tree.payloadCheck block from rfl,
    payloadCheck_of_get_none hbuffered, hcheck]
  simp only
  generalize tree.insertBlock block none = inserted at hinserts ⊢
  obtain ⟨result, tree₁⟩ := inserted
  cases hinserts with
  | alreadySeen known => exact absurd known hfresh
  | malformed _ failed => cases hvalid.symm.trans failed
  | disconnected _ _ orphan =>
      simp only [if_neg orphan]
      rfl
  | noProof _ _ connected => simp only [if_pos connected]
  | rejected _ _ _ proved => cases proved
  | verified _ _ _ proved => cases proved

omit hsteady hbuffered hunmarked hunmarkedParent in
/-- **A block that fails the stateless checks is never buffered**, whether its
proof is there or not. -/
theorem onNewPayload_rejects {error : ConsensusError}
    (hinvalid : validateBlock X block = .error error)
    (σ : SetOrder B256) (maybeProof : Option X.Proof) :
    (onNewPayload σ tree payload maybeProof).2.blockBuffer = tree.blockBuffer := by
  have hhandles := onNewPayload_cases σ tree maybeProof hformed
  have hclear :
      ∀ {tree₁ tree₂ result}, Checks tree (tree.payloadCheck block) block.hash none tree₁ →
      ¬Inserts tree₁ block maybeProof (.ok result) tree₂ := by
    intro tree₁ tree₂ result checks inserts
    cases inserts with
    | alreadySeen known => exact hfresh (checks.provider ▸ known)
    | disconnected _ valid | noProof _ valid | verified _ valid => cases hinvalid.symm.trans valid
  generalize onNewPayload σ tree payload maybeProof = handled at hhandles ⊢
  obtain ⟨result, tree'⟩ := handled
  cases hhandles with
  | invalidAncestor checks => exact checks.blockBuffer
  | connected checks inserts | connectFailed checks inserts | seen checks inserts
  | disconnected checks inserts | noProof checks inserts => exact absurd inserts (hclear checks)
  | failed checks inserts fails | failedFatally checks inserts fails =>
      rw [fails.blockBuffer]
      cases inserts with
      | malformed => exact checks.blockBuffer
      | rejected _ valid => cases hinvalid.symm.trans valid

end EngineTree

/-! ## The two orders -/

namespace ConsensusEngine

/-- What can be seen of an engine is the same: chain, head, pending blocks and
proofs, invalid blocks, the parked payload and the responses. -/
structure Agree (engine engine' : ConsensusEngine X) : Prop where
  provider : engine.tree.provider = engine'.tree.provider
  canonicalHead : engine.tree.canonicalHead = engine'.tree.canonicalHead
  blocks : engine.tree.blockBuffer.blocks = engine'.tree.blockBuffer.blocks
  proofs : engine.tree.blockBuffer.proofs = engine'.tree.blockBuffer.proofs
  parentToChild : engine.tree.blockBuffer.parentToChild = engine'.tree.blockBuffer.parentToChild
  invalid : ∀ hash, X.invalidHeaderCache.Cached engine.tree.invalidHeaders hash ↔
    X.invalidHeaderCache.Cached engine'.tree.invalidHeaders hash
  parkedPayload : engine.parkedPayload = engine'.parkedPayload
  responses : engine.responses = engine'.responses

theorem Agree.of_eq {engine engine' : ConsensusEngine X} (htree : engine.tree = engine'.tree)
    (hparked : engine.parkedPayload = engine'.parkedPayload)
    (hresponses : engine.responses = engine'.responses) : Agree engine engine' where
  provider := by rw [htree]
  canonicalHead := by rw [htree]
  blocks := by rw [htree]
  proofs := by rw [htree]
  parentToChild := by rw [htree]
  invalid hash := by rw [htree]
  parkedPayload := hparked
  responses := hresponses

/-- The engine after a download outcome. -/
def receiveOutcome (σ : SetOrder B256) (engine : ConsensusEngine X) (data : DownloadData X.Proof) :
    ConsensusEngine X :=
  (engine.onDownloadOutcome σ data).2

/-- **The order does not matter**: proof and payload, or proof and full block, may
come in either order.  A hash set is iterated the same way in both. -/
structure ProofOrderIrrelevant (σ : SetOrder B256) (engine : ConsensusEngine X)
    (payload : ExecutionData) (tx : ℕ) (block : Block) (proof : X.Proof) : Prop where
  payload : Agree
    ((engine.receiveOutcome σ (.proof block.hash proof)).onEngineMessage σ (.newPayload payload tx))
    ((engine.onEngineMessage σ (.newPayload payload tx)).receiveOutcome σ (.proof block.hash proof))
  fullBlock : Agree
    ((engine.receiveOutcome σ (.proof block.hash proof)).receiveOutcome σ (.fullBlock block))
    ((engine.receiveOutcome σ (.fullBlock block)).receiveOutcome σ (.proof block.hash proof))

/-- A block of which nothing has arrived yet, and a buffer with room for it. -/
structure Untouched (engine : ConsensusEngine X) (block : Block) : Prop where
  unparked : engine.parkedPayload = none
  room : engine.tree.blockBuffer.blocks.card < engine.tree.blockBuffer.lru.maxLength
  fresh : ¬engine.tree.provider.Contains block.hash
  noBlock : engine.tree.blockBuffer.blocks.get block.hash = none
  noProof : engine.tree.blockBuffer.proofs.get block.hash = none
  unmarked : engine.tree.Unmarked block.hash
  unmarkedParent : engine.tree.Unmarked block.parentHash

variable {feed : Feed X} {engine engine' : ConsensusEngine X} {block : Block} {σ : SetOrder B256}

/-- A proof without its block is filed. -/
theorem receiveOutcome_proof_of_get_none (σ : SetOrder B256) {blockHash : B256}
    (h : engine.tree.blockBuffer.blocks.get blockHash = none) (proof : X.Proof) :
    engine.receiveOutcome σ (.proof blockHash proof)
      = { engine with tree := store engine.tree (.proof blockHash proof) } := by
  have hunlocks := onUnlockedHash_cases σ
    { engine with tree := store engine.tree (.proof blockHash proof) } blockHash
  show onUnlockedHash σ { engine with tree := store engine.tree (.proof blockHash proof) } blockHash
    = _
  cases hunlocks with
  | locked _ same => exact same
  | handled ready => cases h.symm.trans ready.1

section Untouched

variable (hsteady : X.invalidHeaderCache.Steady)
  (hsound : engine.tree.blockBuffer.Sound feed.preimage)
  (h : engine.Untouched block)

include hsound h in
theorem Untouched.room_lru :
    engine.tree.blockBuffer.lru.keys.length < engine.tree.blockBuffer.lru.maxLength := by
  rw [← hsound.agrees.card_blocks]
  exact h.room

include hsound h in
/-- The proof of a buffered block takes it out again, and the block is handled in
the tree from before. -/
theorem Untouched.unlocks (σ : SetOrder B256) (proof : X.Proof) {buffered : ConsensusEngine X}
    (htree : buffered.tree = { engine.tree with
      blockBuffer := engine.tree.blockBuffer.insertBlock block }) :
    ∃ result tree', EngineTree.onDownloadedBlock σ engine.tree block proof = (result, tree') ∧
      (buffered.receiveOutcome σ (.proof block.hash proof)).tree
        = tree'.carryOut (resultEvent result) ∧
      Answers { buffered with tree := store buffered.tree (.proof block.hash proof) } block.hash
        (payloadResult result) (buffered.receiveOutcome σ (.proof block.hash proof)) := by
  have hready : (store buffered.tree (.proof block.hash proof)).blockBuffer.Ready block.hash block
      proof := by
    rw [htree]
    refine ⟨?_, FiniteMap.get_insert_self _ _ _⟩
    show (engine.tree.blockBuffer.insertBlock block).blocks.get block.hash = some block
    rw [BlockBuffer.insertBlock_of_room (.inr (h.room_lru hsound))]
    exact KeyedMap.get_insert_self _ block
  have htaken : takeOut (store buffered.tree (.proof block.hash proof)) block.hash block
      = engine.tree := by
    rw [htree]
    show { engine.tree with blockBuffer := ((engine.tree.blockBuffer.insertBlock block).insertProof
      block.hash proof).drop block.hash block } = engine.tree
    rw [BlockBuffer.drop_insertProof_insertBlock hsound h.noBlock h.noProof (h.room_lru hsound)]
  cases onUnlockedHash_cases σ
      { buffered with tree := store buffered.tree (.proof block.hash proof) } block.hash with
  | locked missing => exact absurd ⟨block, proof, hready⟩ missing
  | @handled block' proof' result tree' ready handled tree answers =>
      obtain rfl : block = block' := Option.some.inj (hready.1.symm.trans ready.1)
      obtain rfl : proof = proof' := Option.some.inj (hready.2.symm.trans ready.2)
      rw [htaken] at handled
      exact ⟨result, tree', handled, tree, answers⟩

include hsound h in
/-- **A full block and its proof** may come in either order. -/
theorem Untouched.fullBlock_order (σ : SetOrder B256) (proof : X.Proof) :
    (engine.receiveOutcome σ (.proof block.hash proof)).receiveOutcome σ (.fullBlock block)
      = (engine.receiveOutcome σ (.fullBlock block)).receiveOutcome σ
        (.proof block.hash proof) := by
  rw [receiveOutcome_proof_of_get_none σ h.noBlock proof]
  cases hrecover : X.tryRecover block with
  | false =>
      have hdropped : ∀ engine : ConsensusEngine X,
          engine.receiveOutcome σ (.fullBlock block) = engine := by
        intro engine
        simp only [receiveOutcome, onDownloadOutcome, hrecover, Bool.false_eq_true, if_false]
      rw [hdropped, hdropped, receiveOutcome_proof_of_get_none σ h.noBlock proof]
  | true =>
      have hfiled : ∀ engine : ConsensusEngine X, engine.receiveOutcome σ (.fullBlock block)
          = onUnlockedHash σ { engine with tree := store engine.tree (.fullBlock block) }
              block.hash := by
        intro engine
        simp only [receiveOutcome, onDownloadOutcome, hrecover, if_true]
        rfl
      have hlocked : engine.receiveOutcome σ (.fullBlock block)
          = { engine with tree := store engine.tree (.fullBlock block) } := by
        rw [hfiled]
        cases onUnlockedHash_cases σ
            { engine with tree := store engine.tree (.fullBlock block) } block.hash with
        | locked _ same => exact same
        | handled ready =>
            have hproof := ready.2
            replace hproof :
                (engine.tree.blockBuffer.insertBlock block).proofs.get block.hash = _ :=
              hproof
            rw [BlockBuffer.insertBlock_of_room (.inr (h.room_lru hsound))] at hproof
            cases h.noProof.symm.trans hproof
      rw [hfiled, hlocked]
      show onUnlockedHash σ { engine with
          tree := { engine.tree with
            blockBuffer :=
              (engine.tree.blockBuffer.insertProof block.hash proof).insertBlock block } }
          block.hash = _
      rw [BlockBuffer.insertBlock_insertProof (h.room_lru hsound)]
      rfl

variable {payload : ExecutionData} (hformed : X.ensureWellFormedPayload payload = .ok block)
  (hhash : block.hash = payload.blockHash)

include hsteady h hformed hhash in
/-- With the proof first, the payload is handled like a downloaded block. -/
theorem Untouched.proof_then_payload (σ : SetOrder B256) (tx : ℕ) (proof : X.Proof) {result tree'}
    (hhandled : EngineTree.onDownloadedBlock σ engine.tree block proof = (result, tree'))
    (hpayload : (engine.receiveOutcome σ (.proof block.hash proof)).onEngineMessage σ
      (.newPayload payload tx) = engine') :
    engine'.tree = tree'.carryOut (resultEvent result) ∧ engine'.parkedPayload = none ∧
      engine'.responses = engine.responses ++ [.payload tx (payloadResult result)] := by
  have hreceives := onEngineMessage_newPayload σ
    (engine.receiveOutcome σ (.proof block.hash proof)) payload tx
  rw [hpayload, receiveOutcome_proof_of_get_none σ h.noBlock proof] at hreceives
  have hcall : callNewPayload σ (store engine.tree (.proof block.hash proof)) payload
      = (result, tree') := by
    unfold callNewPayload
    rw [← hhash]
    show EngineTree.onNewPayload σ { engine.tree with
      blockBuffer :=
        ((engine.tree.blockBuffer.insertProof block.hash proof).removeProof block.hash).2 } payload
      ((engine.tree.blockBuffer.insertProof block.hash proof).removeProof block.hash).1 = _
    rw [BlockBuffer.removeProof_insertProof h.noProof, ← hhandled]
    exact EngineTree.onNewPayload_eq_onDownloadedBlock hsteady hformed h.fresh h.noBlock h.unmarked
      h.unmarkedParent σ proof
  cases hreceives with
  | answered handled tree parkedPayload responses =>
      cases hcall.symm.trans handled
      exact ⟨tree, parkedPayload.trans h.unparked, responses⟩
  | parked handled _ event =>
      cases hcall.symm.trans handled
      have hhandles := EngineTree.onDownloadedBlock_cases σ engine.tree block proof
      rw [hhandled] at hhandles
      exact absurd event (hhandles.proof_not_requested _)

include hsteady hsound h hformed hhash in
/-- With the payload first, a block that passes the stateless checks waits in the
buffer, and is handled when the proof comes. -/
theorem Untouched.payload_then_proof (hvalid : EngineTree.validateBlock X block = .ok ())
    (σ : SetOrder B256) (tx : ℕ) (proof : X.Proof) {result tree'}
    (hhandled : EngineTree.onDownloadedBlock σ engine.tree block proof = (result, tree'))
    (hpayload : (engine.onEngineMessage σ (.newPayload payload tx)).receiveOutcome σ
      (.proof block.hash proof) = engine') :
    engine'.tree = tree'.carryOut (resultEvent result) ∧ engine'.parkedPayload = none ∧
      engine'.responses = engine.responses ++ [.payload tx (payloadResult result)] := by
  have hcall : callNewPayload σ engine.tree payload
      = (.ok ⟨⟨.syncing, none⟩, some (if engine.tree.provider.Contains block.parentHash then
            .downloadProof block.hash
          else .downloadBlock (engine.tree.missingAncestor block).hash)⟩,
        { engine.tree with blockBuffer := engine.tree.blockBuffer.insertBlock block }) := by
    unfold callNewPayload
    rw [← hhash, BlockBuffer.removeProof_of_get_none h.noProof]
    exact EngineTree.onNewPayload_buffers hsteady hformed h.fresh h.noBlock h.unmarkedParent
      hvalid σ
  have hreceives := onEngineMessage_newPayload_fully σ engine payload tx
  generalize engine.onEngineMessage σ (.newPayload payload tx) = buffered at hreceives hpayload
  subst hpayload
  by_cases hparent : engine.tree.provider.Contains block.parentHash
  · -- the payload is parked, and answered when the proof comes
    rw [if_pos hparent] at hcall
    cases hreceives with
    | quiet handled event =>
        cases hcall.symm.trans handled
        cases event
    | eventful handled event unparked =>
        cases hcall.symm.trans handled
        cases event
        cases unparked
    | parked handled _ event after =>
        cases hcall.symm.trans handled
        cases event
        obtain ⟨result', tree'', hhandled', hafter, hanswers⟩ :=
          h.unlocks hsound σ proof (congrArg ConsensusEngine.tree after)
        cases hhandled.symm.trans hhandled'
        subst after
        cases hanswers with
        | answered wasParked own parkedPayload responses =>
            cases wasParked
            exact ⟨hafter, parkedPayload, responses⟩
        | unrelated other => exact absurd rfl (other _ rfl)
  · -- the payload is answered with `Syncing`, and so is the downloaded block
    rw [if_neg hparent] at hcall
    have hresult : payloadResult result = .ok ⟨.syncing, none⟩ := by
      have hhandles := EngineTree.onDownloadedBlock_cases σ engine.tree block proof
      rw [hhandled, EngineTree.lowestBufferedAncestorOr_of_get_none h.noBlock] at hhandles
      exact hhandles.syncing_of_orphan hsteady h.unmarked h.fresh hvalid hparent
    cases hreceives with
    | parked handled _ event =>
        cases hcall.symm.trans handled
        cases event
    | quiet handled event =>
        cases hcall.symm.trans handled
        cases event
    | eventful handled event _ after =>
        cases hcall.symm.trans handled
        cases event
        obtain ⟨result', tree'', hhandled', hafter, hanswers⟩ :=
          h.unlocks hsound σ proof (congrArg ConsensusEngine.tree after)
        cases hhandled.symm.trans hhandled'
        subst after
        cases hanswers with
        | answered wasParked => cases h.unparked.symm.trans wasParked
        | unrelated _ parkedPayload responses =>
            rw [hresult]
            exact ⟨hafter, parkedPayload.trans h.unparked, responses⟩

include hsteady hsound h hformed hhash in
theorem Untouched.payload_order (hvalid : EngineTree.validateBlock X block = .ok ())
    (σ : SetOrder B256) (tx : ℕ) (proof : X.Proof) :
    Agree
      ((engine.receiveOutcome σ (.proof block.hash proof)).onEngineMessage σ
        (.newPayload payload tx))
      ((engine.onEngineMessage σ (.newPayload payload tx)).receiveOutcome σ
        (.proof block.hash proof)) := by
  rcases hhandled : EngineTree.onDownloadedBlock σ engine.tree block proof with ⟨result, tree'⟩
  obtain ⟨htree, hparked, hresponses⟩ :=
    h.proof_then_payload hsteady hformed hhash σ tx proof hhandled rfl
  obtain ⟨htree', hparked', hresponses'⟩ :=
    h.payload_then_proof hsteady hsound hformed hhash hvalid σ tx proof hhandled rfl
  exact .of_eq (htree.trans htree'.symm) (hparked.trans hparked'.symm)
    (hresponses.trans hresponses'.symm)

include h hformed hhash in
/-- **A proof that comes after its block was rejected stays**; one that came
before is used up. -/
theorem Untouched.proofs_of_invalid {error : ConsensusError}
    (hinvalid : EngineTree.validateBlock X block = .error error) (σ : SetOrder B256) (tx : ℕ)
    (proof : X.Proof) :
    ((engine.receiveOutcome σ (.proof block.hash proof)).onEngineMessage σ
        (.newPayload payload tx)).tree.blockBuffer.proofs.get block.hash = none ∧
      ((engine.onEngineMessage σ (.newPayload payload tx)).receiveOutcome σ
        (.proof block.hash proof)).tree.blockBuffer.proofs.get block.hash = some proof := by
  have hkept : ∀ (tree : EngineTree X) (maybeProof : Option X.Proof),
      tree.provider = engine.tree.provider →
      (EngineTree.onNewPayload σ tree payload maybeProof).2.blockBuffer = tree.blockBuffer := by
    intro tree maybeProof hprovider
    exact EngineTree.onNewPayload_rejects hformed (hprovider ▸ h.fresh) hinvalid σ maybeProof
  have hbuffer : ∀ engine' : ConsensusEngine X,
      engine'.tree.provider = engine.tree.provider →
      (engine'.onEngineMessage σ (.newPayload payload tx)).tree.blockBuffer
        = (engine'.tree.blockBuffer.removeProof block.hash).2 := by
    intro engine' hprovider
    have hcall : (callNewPayload σ engine'.tree payload).2.blockBuffer
        = (engine'.tree.blockBuffer.removeProof block.hash).2 := by
      unfold callNewPayload
      rw [← hhash]
      exact hkept _ _ hprovider
    cases onEngineMessage_newPayload σ engine' payload tx with
    | parked handled _ _ tree => rw [tree, ← hcall, handled]
    | answered handled tree => rw [tree, EngineTree.carryOut_blockBuffer, ← hcall, handled]
  constructor
  · rw [receiveOutcome_proof_of_get_none σ h.noBlock proof,
      hbuffer { engine with tree := store engine.tree (.proof block.hash proof) } rfl]
    exact FiniteMap.get_erase_self _ _
  · have hnone : (engine.onEngineMessage σ (.newPayload payload tx)).tree.blockBuffer.blocks.get
        block.hash = none := by
      rw [hbuffer engine rfl]
      exact h.noBlock
    rw [receiveOutcome_proof_of_get_none σ hnone proof]
    exact FiniteMap.get_insert_self _ _ _

end Untouched

/-- **The order of a block and its proof does not matter** exactly if the block
passes the stateless consensus checks. -/
theorem proofOrderIrrelevant_iff (hsteady : X.invalidHeaderCache.Steady)
    (hhashes : X.PayloadHashes) {genesis : Block} {trace : List (Processed X.Proof)}
    (run : FedRun feed (launch X genesis) trace engine) {payload : ExecutionData}
    (hformed : X.ensureWellFormedPayload payload = .ok block) (h : engine.Untouched block)
    (σ : SetOrder B256) (tx : ℕ) (proof : X.Proof) :
    ProofOrderIrrelevant σ engine payload tx block proof ↔
      EngineTree.validateBlock X block = .ok () := by
  have hsound := FedRun.sound_buffer run
  have hhash := hhashes payload block hformed
  constructor
  · intro hirrelevant
    cases hvalid : EngineTree.validateBlock X block with
    | ok u => rfl
    | error error =>
        obtain ⟨hgone, hkept⟩ := h.proofs_of_invalid hformed hhash hvalid σ tx proof
        rw [hirrelevant.payload.proofs, hkept] at hgone
        cases hgone
  · intro hvalid
    refine ⟨h.payload_order hsteady hsound hformed hhash hvalid σ tx proof, ?_⟩
    rw [h.fullBlock_order hsound σ proof]
    exact .of_eq rfl rfl rfl

end ConsensusEngine

namespace SmallWorld

open ConsensusEngine

theorem cache_steady : cache.Steady := by
  intro s hash h
  show (s.get hash, s) = (none, s)
  rw [show s.get hash = none from h]

theorem block_proofOrderIrrelevant :
    ProofOrderIrrelevant ascending (launch externals (block 1 0 0)) (payload (block 2 1 1)) 0
      (block 2 1 1) true := by
  have huntouched : (launch externals (block 1 0 0)).Untouched (block 2 1 1) :=
    { unparked := rfl
      room := by decide +kernel
      fresh := by decide +kernel
      noBlock := by decide +kernel
      noProof := by decide +kernel
      unmarked := fun ⟨_, h⟩ => (nomatch h)
      unmarkedParent := fun ⟨_, h⟩ => (nomatch h) }
  have hhashes : externals.PayloadHashes := by
    rintro payload block ⟨⟩
    rfl
  have hstart : FedRun forkFeed (launch externals (block 1 0 0)) []
      (launch externals (block 1 0 0)) := .start
  exact (proofOrderIrrelevant_iff cache_steady hhashes hstart rfl huntouched ascending 0 true).mpr
    rfl

/-- The external parts of a world in which a block must have an empty body. -/
def emptyBodies : Externals :=
  { externals with
    validateBlockPreExecution := fun block =>
      if block.body = [] then .ok () else .error (.other "transaction root mismatch") }

/-- A feed of that world. -/
def emptyBodiesFeed : Feed emptyBodies where
  preimage := forkFeed.preimage
  preimage_keyed := forkFeed.preimage_keyed
  blocks := forkFeed.blocks
  proofs := forkFeed.proofs
  finalized := forkFeed.finalized
  states := forkFeed.states
  blocks_conform := forkFeed.blocks_conform
  finalized_conform := forkFeed.finalized_conform
  ancestors_conform := forkFeed.ancestors_conform

/-- Block 2 with a body that it must not have. -/
def fullBody : Block := { block 2 1 1 with body := [1] }

/-- Block 2 is requested, with its proof, as the head of a fork-choice update. -/
def requested : List (Processed emptyBodies.Proof) :=
  [.message (.forkchoiceUpdated ⟨2, 1, 1⟩ none 0 3)]

/-- **The order does matter for a block that fails the stateless checks**, also
while its proof is on its way. -/
theorem fullBody_order_matters :
    ∃ engine, FedRun emptyBodiesFeed (launch emptyBodies (block 1 0 0)) requested engine ∧
      (2 : B256) ∈ engine.downloader.inflightProofRequests ∧ engine.Untouched fullBody ∧
      emptyBodies.ensureWellFormedPayload (payload fullBody) = .ok fullBody ∧
      ¬ProofOrderIrrelevant ascending engine (payload fullBody) 1 fullBody true := by
  have hends : (replay ascending requested (launch emptyBodies (block 1 0 0))).any
      (fun engine => decide ((2 : B256) ∈ engine.downloader.inflightProofRequests ∧
        engine.parkedPayload = none ∧
        engine.tree.blockBuffer.blocks.card < engine.tree.blockBuffer.lru.maxLength ∧
        ¬engine.tree.provider.Contains 2 ∧
        engine.tree.blockBuffer.blocks.get 2 = none ∧
        (engine.tree.blockBuffer.proofs.get 2).isNone = true ∧
        ((cache.contents engine.tree.invalidHeaders).get 2).isNone = true ∧
        ((cache.contents engine.tree.invalidHeaders).get 1).isNone = true ∧
        (((engine.receiveOutcome ascending (.proof 2 true)).onEngineMessage ascending
          (.newPayload (payload fullBody) 1)).tree.blockBuffer.proofs.get 2).isNone = true ∧
        (((engine.onEngineMessage ascending (.newPayload (payload fullBody) 1)).receiveOutcome
          ascending (.proof 2 true)).tree.blockBuffer.proofs.get 2).isSome = true)) = true := by
    decide +kernel
  obtain ⟨engine, hreplay, hstate⟩ := (Option.any_eq_true _ _).mp hends
  obtain ⟨hrequested, hunparked, hroom, hfresh, hblock, hproof, hunmarked, hparent, hgone, hkept⟩ :=
    of_decide_eq_true hstate
  rw [Option.isNone_iff_eq_none] at hproof hunmarked hparent hgone
  refine ⟨engine, .of_replay (fun _ event hmem => ?_) hreplay, hrequested,
    ⟨hunparked, hroom, hfresh, hblock, hproof, ?_, ?_⟩, rfl, ?_⟩
  · rw [List.mem_singleton.mp hmem]
    trivial
  · rintro ⟨entry, hentry⟩
    cases hunmarked.symm.trans hentry
  · rintro ⟨entry, hentry⟩
    cases hparent.symm.trans hentry
  · intro hirrelevant
    have hsame := congrArg (FiniteMap.get · fullBody.hash) hirrelevant.payload.proofs
    exact Option.isSome_iff_ne_none.mp hkept (hsame.symm.trans hgone)

end SmallWorld

end ZkRess
