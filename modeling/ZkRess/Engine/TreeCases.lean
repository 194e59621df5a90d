import ZkRess.Engine.Tree

/-!
# What each tree operation can do

One inversion result per method of the engine tree.  `Inserts`, `Checks` and
`Handles` list every way out of `insert_block`, of the invalid-ancestor check and
of the two block handlers, each with the tree it leaves and the guards it was
taken under.  The invariants of the tree are proved from these lists; no proof
outside this module unfolds a method again.
-/

namespace ZkRess

open Foundation

namespace EngineTree

variable {X : Externals}

/-! ## Lookups in the invalid cache -/

/-- Only the invalid cache changed, and it only lost entries. -/
structure Peeks (tree tree' : EngineTree X) : Prop where
  eq : tree' = { tree with invalidHeaders := tree'.invalidHeaders }
  shrinks : X.invalidHeaderCache.Lawful → ∀ hash entry,
    (X.invalidHeaderCache.contents tree'.invalidHeaders).get hash = some entry →
      (X.invalidHeaderCache.contents tree.invalidHeaders).get hash = some entry

namespace Peeks

variable {tree tree' tree'' : EngineTree X}

theorem refl (tree : EngineTree X) : Peeks tree tree := ⟨rfl, fun _ _ _ h => h⟩

theorem trans (h : Peeks tree tree') (h' : Peeks tree' tree'') : Peeks tree tree'' where
  eq := by rw [h'.eq, h.eq]
  shrinks hlawful hash entry hget :=
    h.shrinks hlawful hash entry (h'.shrinks hlawful hash entry hget)

theorem provider (h : Peeks tree tree') : tree'.provider = tree.provider := by rw [h.eq]

theorem canonicalHead (h : Peeks tree tree') : tree'.canonicalHead = tree.canonicalHead := by
  rw [h.eq]

theorem blockBuffer (h : Peeks tree tree') : tree'.blockBuffer = tree.blockBuffer := by rw [h.eq]

theorem forkchoiceStateTracker (h : Peeks tree tree') :
    tree'.forkchoiceStateTracker = tree.forkchoiceStateTracker := by rw [h.eq]

/-- One lookup. -/
theorem get (tree : EngineTree X) (hash : B256) :
    Peeks tree { tree with
      invalidHeaders := (X.invalidHeaderCache.get tree.invalidHeaders hash).2 } where
  eq := rfl
  shrinks hlawful hash' entry hget := hlawful.get_shrinks tree.invalidHeaders hash hash' entry hget

end Peeks

private theorem latestValidHashFrom_shrinks (hlawful : X.invalidHeaderCache.Lawful)
    (provider : ChainState X.Proof) (n : ℕ) (block : BlockWithParent)
    (cache : X.invalidHeaderCache.State) (hash : B256) (entry : BlockWithParent)
    (h : (X.invalidHeaderCache.contents (latestValidHashFrom provider n block cache).2).get hash
      = some entry) : (X.invalidHeaderCache.contents cache).get hash = some entry := by
  induction n generalizing block cache with
  | zero => exact h
  | succ n ih =>
      refine hlawful.get_shrinks cache block.parent hash entry ?_
      simp only [latestValidHashFrom] at h
      split at h
      · next next cache' heq =>
          rw [heq]
          exact ih next cache' h
      · next cache' heq =>
          rw [heq]
          split at h <;> exact h

theorem latestValidHash_peeks (tree : EngineTree X) (parentHash : B256) :
    Peeks tree (tree.latestValidHashForInvalidPayload parentHash).2 := by
  unfold latestValidHashForInvalidPayload
  split
  · exact .refl tree
  · split
    · next cache heq =>
        have hget := Peeks.get tree parentHash
        rwa [heq] at hget
    · next block cache heq =>
        have hget := Peeks.get tree parentHash
        rw [heq] at hget
        refine ⟨rfl, fun hlawful hash entry hentry => hget.shrinks hlawful hash entry ?_⟩
        exact latestValidHashFrom_shrinks hlawful tree.provider _ block cache hash entry hentry

theorem prepareInvalidResponse_peeks (tree : EngineTree X) (parentHash : B256) :
    Peeks tree (tree.prepareInvalidResponse parentHash).2 :=
  latestValidHash_peeks tree _

/-- An answer prepared for an invalid block says so. -/
theorem prepareInvalidResponse_invalid (tree : EngineTree X) (parentHash : B256) :
    ∃ message, (tree.prepareInvalidResponse parentHash).1.status = .invalid message :=
  ⟨linksToRejectedPayload, rfl⟩

theorem malformedLatestValidHash_peeks (tree : EngineTree X) (parentHash : B256)
    (error : PayloadError) : Peeks tree (tree.malformedLatestValidHash parentHash error).2 := by
  unfold malformedLatestValidHash
  split
  · exact .refl tree
  · exact latestValidHash_peeks tree parentHash

/-! ## The check for invalid ancestors -/

/-- The ways out of `check_invalid_ancestor_with_head`. -/
inductive Checks (tree : EngineTree X) (check head : B256) :
    Option PayloadStatus → EngineTree X → Prop
  /-- The checked hash is not known to be invalid. -/
  | clear {tree'} (peeks : Peeks tree tree')
      (missed : (X.invalidHeaderCache.get tree.invalidHeaders check).1 = none) :
      Checks tree check head none tree'
  /-- It is: the head is remembered as invalid, too. -/
  | invalid {tree' entry status message} (peeks : Peeks tree tree')
      (found : (X.invalidHeaderCache.get tree.invalidHeaders check).1 = some entry)
      (answer : status.status = .invalid message) :
      Checks tree check head (some status)
        { tree' with
          invalidHeaders :=
            X.invalidHeaderCache.insertWithInvalidAncestor tree'.invalidHeaders head entry }

theorem checkInvalidAncestorWithHead_cases (tree : EngineTree X) (check head : B256) :
    Checks tree check head (tree.checkInvalidAncestorWithHead check head).1
      (tree.checkInvalidAncestorWithHead check head).2 := by
  have hget := Peeks.get tree check
  unfold checkInvalidAncestorWithHead
  split
  · next cache heq =>
      rw [heq] at hget
      exact .clear hget (by rw [heq])
  · next entry cache heq =>
      rw [heq] at hget
      obtain ⟨message, hmessage⟩ := prepareInvalidResponse_invalid
        { tree with invalidHeaders := cache } entry.parent
      exact .invalid (hget.trans (prepareInvalidResponse_peeks _ entry.parent)) (by rw [heq])
        hmessage

theorem Checks.provider {tree tree' : EngineTree X} {check head : B256}
    {status : Option PayloadStatus} (h : Checks tree check head status tree') :
    tree'.provider = tree.provider := by
  cases h with
  | clear peeks => exact peeks.provider
  | invalid peeks => exact peeks.provider

theorem Checks.blockBuffer {tree tree' : EngineTree X} {check head : B256}
    {status : Option PayloadStatus} (h : Checks tree check head status tree') :
    tree'.blockBuffer = tree.blockBuffer := by
  cases h with
  | clear peeks => exact peeks.blockBuffer
  | invalid peeks => exact peeks.blockBuffer

/-- The ways out of `check_invalid_ancestor`. -/
inductive ChecksHead (tree : EngineTree X) (head : B256) :
    Option PayloadStatus → EngineTree X → Prop
  | clear {tree'} (peeks : Peeks tree tree')
      (missed : (X.invalidHeaderCache.get tree.invalidHeaders head).1 = none) :
      ChecksHead tree head none tree'
  | invalid {tree' entry status message} (peeks : Peeks tree tree')
      (found : (X.invalidHeaderCache.get tree.invalidHeaders head).1 = some entry)
      (answer : status.status = .invalid message) : ChecksHead tree head (some status) tree'

theorem checkInvalidAncestor_cases (tree : EngineTree X) (head : B256) :
    ChecksHead tree head (tree.checkInvalidAncestor head).1 (tree.checkInvalidAncestor head).2 := by
  have hget := Peeks.get tree head
  unfold checkInvalidAncestor
  split
  · next cache heq =>
      rw [heq] at hget
      exact .clear hget (by rw [heq])
  · next entry cache heq =>
      rw [heq] at hget
      obtain ⟨message, hmessage⟩ := prepareInvalidResponse_invalid
        { tree with invalidHeaders := cache } entry.parent
      exact .invalid (hget.trans (prepareInvalidResponse_peeks _ entry.parent)) (by rw [heq])
        hmessage

/-! ## Inserting a block -/

/-- The ancestor a disconnected block is waiting for. -/
def missingAncestor (tree : EngineTree X) (block : Block) : BlockNumHash :=
  match tree.blockBuffer.lowestAncestor block.parentHash with
  | some ancestor => ancestor.parentNumHash
  | none => block.parentNumHash

/-- The buffer with the proof of a block, if there is one, and the block. -/
def bufferWith {P : Type} (buffer : BlockBuffer P) (block : Block) (maybeProof : Option P) :
    BlockBuffer P :=
  (match maybeProof with
    | some proof => buffer.insertProof block.hash proof
    | none => buffer).insertBlock block

/-- With the block there already, or below the limit, the block and its proof are filed, and
nothing else changes. -/
theorem bufferWith_of_room {P : Type} {buffer : BlockBuffer P} {block : Block} {proof : P}
    (hroom : block.hash ∈ buffer.lru.keys ∨ buffer.lru.keys.length < buffer.lru.maxLength) :
    (∀ hash, (bufferWith buffer block (some proof)).blocks.get hash
        = if hash = block.hash then some block else buffer.blocks.get hash) ∧
      (∀ hash, (bufferWith buffer block (some proof)).proofs.get hash
        = if hash = block.hash then some proof else buffer.proofs.get hash) ∧
      (bufferWith buffer block (some proof)).lru = buffer.lru.getOrInsert block.hash := by
  have hroom' : block.hash ∈ (buffer.insertProof block.hash proof).lru.keys ∨
      (buffer.insertProof block.hash proof).lru.keys.length
        < (buffer.insertProof block.hash proof).lru.maxLength := hroom
  have hbuffer : bufferWith buffer block (some proof)
      = { (buffer.insertProof block.hash proof).file block with
          lru := buffer.lru.getOrInsert block.hash } :=
    BlockBuffer.insertBlock_of_room hroom'
  rw [hbuffer]
  exact ⟨fun hash => KeyedMap.get_insert buffer.blocks block hash,
    fun hash => FiniteMap.get_insert buffer.proofs block.hash hash proof, rfl⟩

/-- The tree with a verified block, and the event that reports it. -/
def addVerified (tree : EngineTree X) (block : Block) (proof : X.Proof) : EngineTree X :=
  let tree := { tree with provider := tree.provider.insertBlock block (some proof) }
  tree.emitEvent (if tree.isFork block.hash then .forkBlockAdded block
    else .canonicalBlockAdded block)

/-- The ways out of `insert_block`. -/
inductive Inserts (tree : EngineTree X) (block : Block) (maybeProof : Option X.Proof) :
    Except InsertBlockErrorKind InsertPayloadOk → EngineTree X → Prop
  /-- The provider has the block. -/
  | alreadySeen (known : tree.provider.Contains block.hash) :
      Inserts tree block maybeProof (.ok .alreadySeen) tree
  /-- The header or the body violates a consensus rule. -/
  | malformed {error} (fresh : ¬tree.provider.Contains block.hash)
      (failed : validateBlock X block = .error error) :
      Inserts tree block maybeProof (.error (.consensus error)) tree
  /-- The parent is missing. -/
  | disconnected (fresh : ¬tree.provider.Contains block.hash)
      (valid : validateBlock X block = .ok ())
      (orphan : ¬tree.provider.Contains block.parentHash) :
      Inserts tree block maybeProof
        (.ok (.inserted (.disconnected tree.canonicalHead (tree.missingAncestor block))))
        { tree with blockBuffer := bufferWith tree.blockBuffer block maybeProof }
  /-- The parent is there and the proof is missing. -/
  | noProof (fresh : ¬tree.provider.Contains block.hash) (valid : validateBlock X block = .ok ())
      (connected : tree.provider.Contains block.parentHash) (unproved : maybeProof = none) :
      Inserts tree block maybeProof (.ok (.inserted .noProof))
        { tree with blockBuffer := tree.blockBuffer.insertBlock block }
  /-- The verifier rejects the block. -/
  | rejected {parent proof error} (fresh : ¬tree.provider.Contains block.hash)
      (valid : validateBlock X block = .ok ())
      (connected : tree.provider.sealedHeader block.parentHash = some parent)
      (proved : maybeProof = some proof)
      (failed : X.verify tree.provider block parent proof = .error error) :
      Inserts tree block maybeProof (.error (insertErrorKind error)) tree
  /-- The verifier accepts the block. -/
  | verified {parent proof} (fresh : ¬tree.provider.Contains block.hash)
      (valid : validateBlock X block = .ok ())
      (connected : tree.provider.sealedHeader block.parentHash = some parent)
      (proved : maybeProof = some proof)
      (passed : X.verify tree.provider block parent proof = .ok ()) :
      Inserts tree block maybeProof (.ok (.inserted .valid)) (tree.addVerified block proof)

theorem insertBlock_cases (tree : EngineTree X) (block : Block) (maybeProof : Option X.Proof) :
    Inserts tree block maybeProof (tree.insertBlock block maybeProof).1
      (tree.insertBlock block maybeProof).2 := by
  unfold insertBlock
  by_cases hknown : tree.provider.Contains block.hash
  · rw [if_pos (ChainState.contains_iff_isSome.mp hknown)]
    exact .alreadySeen hknown
  · rw [if_neg fun h => hknown (ChainState.contains_iff_isSome.mpr h)]
    cases hvalid : validateBlock X block with
    | error error => exact .malformed hknown hvalid
    | ok u =>
        cases hparent : tree.provider.sealedHeader block.parentHash with
        | none =>
            have horphan : ¬tree.provider.Contains block.parentHash := by
              rw [ChainState.contains_iff_isSome, hparent]
              exact Bool.false_ne_true
            cases maybeProof with
            | none => exact .disconnected hknown hvalid horphan
            | some proof => exact .disconnected hknown hvalid horphan
        | some parent =>
            cases maybeProof with
            | none =>
                exact .noProof hknown hvalid
                  (ChainState.contains_iff_sealedHeader.mpr ⟨parent, hparent⟩) rfl
            | some proof =>
                cases hverify : X.verify tree.provider block parent proof with
                | error error =>
                    simp only [hverify]
                    exact .rejected hknown hvalid hparent rfl hverify
                | ok u =>
                    simp only [hverify]
                    exact .verified hknown hvalid hparent rfl hverify

/-- The ways out of `on_insert_block_error`. -/
inductive Fails (tree : EngineTree X) (block : Block) (error : InsertBlockErrorKind) :
    Except InsertBlockFatalError PayloadStatus → EngineTree X → Prop
  /-- The error is not the block's fault. -/
  | fatal {fatal} (isFatal : X.ensureValidationError error = .error fatal) :
      Fails tree block error (.error fatal) tree
  /-- The block is remembered as invalid. -/
  | invalid {validationErr tree' latestValidHash}
      (isValidation : X.ensureValidationError error = .ok validationErr)
      (peeks : Peeks tree tree') :
      Fails tree block error (.ok ⟨.invalid validationErr.message, latestValidHash⟩)
        { tree' with
          invalidHeaders := X.invalidHeaderCache.insert tree'.invalidHeaders block.blockWithParent }

theorem onInsertBlockError_cases (tree : EngineTree X) (block : Block)
    (error : InsertBlockErrorKind) :
    Fails tree block error (tree.onInsertBlockError block error).1
      (tree.onInsertBlockError block error).2 := by
  unfold onInsertBlockError
  cases herror : X.ensureValidationError error with
  | error fatal => exact .fatal herror
  | ok validationErr =>
      exact .invalid herror (latestValidHash_peeks tree block.parentHash)

/-! ## The block handlers -/

/-- The event that asks the caller to make a sync target canonical. -/
def syncTargetEvent (tree : EngineTree X) (blockHash : B256) : Option TreeEvent :=
  if tree.isSyncTargetHead blockHash then some (.makeCanonical blockHash) else none

/-- The ways out of `on_new_payload` for a well-formed payload, and of
`on_downloaded_block`; `check` is the hash looked up in the invalid cache. -/
inductive Handles (σ : SetOrder B256) (tree : EngineTree X) (check : B256) (block : Block)
    (maybeProof : Option X.Proof) :
    Except InsertBlockFatalError (TreeOutcome PayloadStatus) → EngineTree X → Prop
  /-- An ancestor is known to be invalid. -/
  | invalidAncestor {status tree'} (checks : Checks tree check block.hash (some status) tree') :
      Handles σ tree check block maybeProof (.ok (.new status)) tree'
  /-- The block is in, and its descendants are connected. -/
  | connected {result tree₁ tree₂ tree₃ event} (checks : Checks tree check block.hash none tree₁)
      (inserts : Inserts tree₁ block maybeProof (.ok result) tree₂)
      (isIn : result = .inserted .valid ∨ result = .alreadySeen)
      (connects : tryConnectBufferedBlocks σ tree₂ block.hash = (.ok (), tree₃))
      (event_eq : event = tree₂.syncTargetEvent block.hash ∨
        event = tree₃.syncTargetEvent block.hash) :
      Handles σ tree check block maybeProof (.ok ⟨⟨.valid, some block.hash⟩, event⟩) tree₃
  /-- The block is in, and connecting its descendants failed. -/
  | connectFailed {result tree₁ tree₂ tree₃ fatal}
      (checks : Checks tree check block.hash none tree₁)
      (inserts : Inserts tree₁ block maybeProof (.ok result) tree₂)
      (isIn : result = .inserted .valid ∨ result = .alreadySeen)
      (connects : tryConnectBufferedBlocks σ tree₂ block.hash = (.error fatal, tree₃)) :
      Handles σ tree check block maybeProof (.error fatal) tree₃
  /-- A downloaded block was in already. -/
  | seen {tree₁ tree₂} (checks : Checks tree check block.hash none tree₁)
      (inserts : Inserts tree₁ block maybeProof (.ok .alreadySeen) tree₂) :
      Handles σ tree check block maybeProof (.ok (.new ⟨.valid, some block.hash⟩)) tree₂
  /-- The block waits for an ancestor. -/
  | disconnected {tree₁ tree₂ head missing} (checks : Checks tree check block.hash none tree₁)
      (inserts : Inserts tree₁ block maybeProof (.ok (.inserted (.disconnected head missing)))
        tree₂) :
      Handles σ tree check block maybeProof
        (.ok ⟨⟨.syncing, none⟩, some (.downloadBlock missing.hash)⟩) tree₂
  /-- The block waits for its proof. -/
  | noProof {tree₁ tree₂} (checks : Checks tree check block.hash none tree₁)
      (inserts : Inserts tree₁ block maybeProof (.ok (.inserted .noProof)) tree₂) :
      Handles σ tree check block maybeProof
        (.ok ⟨⟨.syncing, none⟩, some (.downloadProof block.hash)⟩) tree₂
  /-- The block is invalid. -/
  | failed {tree₁ tree₂ tree₃ kind status} (checks : Checks tree check block.hash none tree₁)
      (inserts : Inserts tree₁ block maybeProof (.error kind) tree₂)
      (fails : Fails tree₂ block kind (.ok status) tree₃) :
      Handles σ tree check block maybeProof (.ok (.new status)) tree₃
  /-- The insertion failed for another reason. -/
  | failedFatally {tree₁ tree₂ tree₃ kind fatal} (checks : Checks tree check block.hash none tree₁)
      (inserts : Inserts tree₁ block maybeProof (.error kind) tree₂)
      (fails : Fails tree₂ block kind (.error fatal) tree₃) :
      Handles σ tree check block maybeProof (.error fatal) tree₃

/-- The hash a new payload is checked under. -/
def payloadCheck (tree : EngineTree X) (block : Block) : B256 :=
  if tree.lowestBufferedAncestorOr block.hash = block.hash then block.parentHash
  else tree.lowestBufferedAncestorOr block.hash

/-- **New payloads**: one that is not well formed only costs lookups in the
invalid cache; the block of any other is handled. -/
theorem onNewPayload_malformed (σ : SetOrder B256) (tree : EngineTree X)
    {payload : ExecutionData} (maybeProof : Option X.Proof) {error : PayloadError}
    (h : X.ensureWellFormedPayload payload = .error error) :
    ∃ latestValidHash tree', Peeks tree tree' ∧
      onNewPayload σ tree payload maybeProof
        = (.ok (.new ⟨.invalid error.message, latestValidHash⟩), tree') := by
  unfold onNewPayload
  rw [h]
  exact ⟨_, _, malformedLatestValidHash_peeks tree payload.parentHash error, rfl⟩

theorem onNewPayload_cases (σ : SetOrder B256) (tree : EngineTree X) {payload : ExecutionData}
    (maybeProof : Option X.Proof) {block : Block}
    (h : X.ensureWellFormedPayload payload = .ok block) :
    Handles σ tree (tree.payloadCheck block) block maybeProof
      (onNewPayload σ tree payload maybeProof).1 (onNewPayload σ tree payload maybeProof).2 := by
  have hchecks := checkInvalidAncestorWithHead_cases tree (tree.payloadCheck block) block.hash
  unfold onNewPayload
  rw [h]
  simp only
  rw [show (if tree.lowestBufferedAncestorOr block.hash = block.hash then block.parentHash
    else tree.lowestBufferedAncestorOr block.hash) = tree.payloadCheck block from rfl]
  split
  · next status tree₁ heq =>
      rw [heq] at hchecks
      exact .invalidAncestor hchecks
  · next tree₁ heq =>
      rw [heq] at hchecks
      have hinserts := insertBlock_cases tree₁ block maybeProof
      split
      · next tree₂ hinsert =>
          rw [hinsert] at hinserts
          split
          · next fatal tree₃ hconnect =>
              exact .connectFailed hchecks hinserts (.inl rfl) hconnect
          · next tree₃ hconnect =>
              exact .connected hchecks hinserts (.inl rfl) hconnect (.inr rfl)
      · next tree₂ hinsert =>
          rw [hinsert] at hinserts
          split
          · next fatal tree₃ hconnect =>
              exact .connectFailed hchecks hinserts (.inr rfl) hconnect
          · next tree₃ hconnect =>
              exact .connected hchecks hinserts (.inr rfl) hconnect (.inr rfl)
      · next tree₂ hinsert =>
          rw [hinsert] at hinserts
          exact .disconnected hchecks hinserts
      · next tree₂ hinsert =>
          rw [hinsert] at hinserts
          exact .noProof hchecks hinserts
      · next kind tree₂ hinsert =>
          rw [hinsert] at hinserts
          have hfails := onInsertBlockError_cases tree₂ block kind
          split
          · next fatal tree₃ hfail =>
              rw [hfail] at hfails
              exact .failedFatally hchecks hinserts hfails
          · next status tree₃ hfail =>
              rw [hfail] at hfails
              exact .failed hchecks hinserts hfails

/-- **Downloaded blocks.** -/
theorem onDownloadedBlock_cases (σ : SetOrder B256) (tree : EngineTree X) (block : Block)
    (proof : X.Proof) :
    Handles σ tree (tree.lowestBufferedAncestorOr block.hash) block (some proof)
      (onDownloadedBlock σ tree block proof).1 (onDownloadedBlock σ tree block proof).2 := by
  have hchecks := checkInvalidAncestorWithHead_cases tree
    (tree.lowestBufferedAncestorOr block.hash) block.hash
  unfold onDownloadedBlock
  split
  · next status tree₁ heq =>
      rw [heq] at hchecks
      exact .invalidAncestor hchecks
  · next tree₁ heq =>
      rw [heq] at hchecks
      have hinserts := insertBlock_cases tree₁ block (some proof)
      split
      · next tree₂ hinsert =>
          rw [hinsert] at hinserts
          simp only
          split
          · next fatal tree₃ hconnect =>
              exact .connectFailed hchecks hinserts (.inl rfl) hconnect
          · next tree₃ hconnect =>
              exact .connected hchecks hinserts (.inl rfl) hconnect (.inl rfl)
      · next tree₂ hinsert =>
          rw [hinsert] at hinserts
          exact .seen hchecks hinserts
      · next tree₂ hinsert =>
          rw [hinsert] at hinserts
          exact .disconnected hchecks hinserts
      · next tree₂ hinsert =>
          rw [hinsert] at hinserts
          exact .noProof hchecks hinserts
      · next kind tree₂ hinsert =>
          rw [hinsert] at hinserts
          have hfails := onInsertBlockError_cases tree₂ block kind
          split
          · next fatal tree₃ hfail =>
              rw [hfail] at hfails
              exact .failedFatally hchecks hinserts hfails
          · next status tree₃ hfail =>
              rw [hfail] at hfails
              exact .failed hchecks hinserts hfails

/-- What an invalid answer names as the latest valid hash: it is found from the entry of
the checked hash, or else from the block's parent. -/
inductive Condemns (tree : EngineTree X) (check parent : B256) : PayloadStatus → Prop
  | linked {entry} (found : (X.invalidHeaderCache.get tree.invalidHeaders check).1 = some entry) :
      Condemns tree check parent (prepareInvalidResponse { tree with
        invalidHeaders := (X.invalidHeaderCache.get tree.invalidHeaders check).2 } entry.parent).1
  | failed {status} (missed : (X.invalidHeaderCache.get tree.invalidHeaders check).1 = none)
      (latest : status.latestValidHash = (latestValidHashForInvalidPayload { tree with
        invalidHeaders := (X.invalidHeaderCache.get tree.invalidHeaders check).2 } parent).1) :
      Condemns tree check parent status

theorem insertBlock_error_eq {tree tree' : EngineTree X} {block : Block}
    {maybeProof : Option X.Proof} {kind : InsertBlockErrorKind}
    (h : tree.insertBlock block maybeProof = (.error kind, tree')) : tree' = tree := by
  have hinserts := insertBlock_cases tree block maybeProof
  rw [h] at hinserts
  cases hinserts <;> rfl

theorem onInsertBlockError_latest {tree tree' : EngineTree X} {block : Block}
    {kind : InsertBlockErrorKind} {status : PayloadStatus}
    (h : tree.onInsertBlockError block kind = (.ok status, tree')) :
    status.latestValidHash = (tree.latestValidHashForInvalidPayload block.parentHash).1 := by
  unfold onInsertBlockError at h
  match hvalidation : X.ensureValidationError kind with
  | .error fatal =>
      rw [hvalidation] at h
      cases h
  | .ok validationErr =>
      rw [hvalidation] at h
      cases h
      rfl

theorem Condemns.of_found {tree : EngineTree X} {check parent : B256} {entry : BlockWithParent}
    {s : X.invalidHeaderCache.State}
    (hfound : X.invalidHeaderCache.get tree.invalidHeaders check = (some entry, s)) :
    Condemns tree check parent
      (prepareInvalidResponse { tree with invalidHeaders := s } entry.parent).1 := by
  have hlinked := @Condemns.linked X tree check parent entry
  rw [hfound] at hlinked
  exact hlinked rfl

theorem Condemns.of_error {tree tree₂ tree₃ : EngineTree X} {check : B256} {block : Block}
    {maybeProof : Option X.Proof} {s : X.invalidHeaderCache.State} {kind : InsertBlockErrorKind}
    {status : PayloadStatus}
    (hmissed : X.invalidHeaderCache.get tree.invalidHeaders check = (none, s))
    (hinsert : insertBlock { tree with invalidHeaders := s } block maybeProof
      = (.error kind, tree₂))
    (hfail : tree₂.onInsertBlockError block kind = (.ok status, tree₃)) :
    Condemns tree check block.parentHash status := by
  have hfailed := @Condemns.failed X tree check block.parentHash status
  rw [hmissed] at hfailed
  obtain rfl := insertBlock_error_eq hinsert
  exact hfailed rfl (onInsertBlockError_latest hfail)

theorem onNewPayload_condemns {σ : SetOrder B256} {tree tree' : EngineTree X}
    {payload : ExecutionData} {maybeProof : Option X.Proof} {block : Block}
    (hformed : X.ensureWellFormedPayload payload = .ok block)
    {outcome : TreeOutcome PayloadStatus}
    (h : onNewPayload σ tree payload maybeProof = (.ok outcome, tree'))
    (hinvalid : ∃ message, outcome.outcome.status = .invalid message) :
    Condemns tree (tree.payloadCheck block) block.parentHash outcome.outcome := by
  obtain ⟨message, hinvalid⟩ := hinvalid
  unfold onNewPayload at h
  rw [hformed] at h
  simp only at h
  rw [show (if tree.lowestBufferedAncestorOr block.hash = block.hash then block.parentHash
    else tree.lowestBufferedAncestorOr block.hash) = tree.payloadCheck block from rfl] at h
  unfold checkInvalidAncestorWithHead at h
  generalize hlooked : X.invalidHeaderCache.get tree.invalidHeaders (tree.payloadCheck block)
    = looked at h
  match looked, h with
  | (some entry, s), h =>
      cases h
      exact .of_found hlooked
  | (none, s), h =>
      simp only at h
      generalize hinsert : insertBlock { tree with invalidHeaders := s } block maybeProof = inserted
        at h
      match inserted, h with
      | (.ok (.inserted .valid), tree₂), h | (.ok .alreadySeen, tree₂), h =>
          simp only at h
          generalize tryConnectBufferedBlocks σ tree₂ block.hash = connected at h
          match connected, h with
          | (.ok (), tree₃), h =>
              cases h
              cases hinvalid
      | (.ok (.inserted (.disconnected _ _)), tree₂), h =>
          cases h
          cases hinvalid
      | (.ok (.inserted .noProof), tree₂), h =>
          cases h
          cases hinvalid
      | (.error kind, tree₂), h =>
          simp only at h
          generalize hfail : tree₂.onInsertBlockError block kind = failed at h
          match failed, h with
          | (.ok status, tree₃), h =>
              cases h
              exact .of_error hlooked hinsert hfail

theorem onDownloadedBlock_condemns {σ : SetOrder B256} {tree tree' : EngineTree X} {block : Block}
    {proof : X.Proof} {outcome : TreeOutcome PayloadStatus}
    (h : onDownloadedBlock σ tree block proof = (.ok outcome, tree'))
    (hinvalid : ∃ message, outcome.outcome.status = .invalid message) :
    Condemns tree (tree.lowestBufferedAncestorOr block.hash) block.parentHash outcome.outcome := by
  obtain ⟨message, hinvalid⟩ := hinvalid
  unfold onDownloadedBlock checkInvalidAncestorWithHead at h
  generalize hlooked : X.invalidHeaderCache.get tree.invalidHeaders
    (tree.lowestBufferedAncestorOr block.hash) = looked at h
  match looked, h with
  | (some entry, s), h =>
      cases h
      exact .of_found hlooked
  | (none, s), h =>
      simp only at h
      generalize hinsert : insertBlock { tree with invalidHeaders := s } block (some proof)
        = inserted at h
      match inserted, h with
      | (.ok (.inserted .valid), tree₂), h =>
          simp only at h
          generalize tryConnectBufferedBlocks σ tree₂ block.hash = connected at h
          match connected, h with
          | (.ok (), tree₃), h =>
              cases h
              cases hinvalid
      | (.ok .alreadySeen, tree₂), h =>
          cases h
          cases hinvalid
      | (.ok (.inserted (.disconnected _ _)), tree₂), h =>
          cases h
          cases hinvalid
      | (.ok (.inserted .noProof), tree₂), h =>
          cases h
          cases hinvalid
      | (.error kind, tree₂), h =>
          simp only at h
          generalize hfail : tree₂.onInsertBlockError block kind = failed at h
          match failed, h with
          | (.ok status, tree₃), h =>
              cases h
              exact .of_error hlooked hinsert hfail

/-- A handler whose block has been verified goes on to connect the block's descendants,
and answers with the fatal error if there is one. -/
def AnswersConnection (σ : SetOrder B256) (tree : EngineTree X) (blockHash : B256)
    (answer : Except InsertBlockFatalError (TreeOutcome PayloadStatus) × EngineTree X) : Prop :=
  answer.2 = (tryConnectBufferedBlocks σ tree blockHash).2 ∧
    match (tryConnectBufferedBlocks σ tree blockHash).1 with
    | .ok () => ∃ event, answer.1 = .ok ⟨⟨.valid, some blockHash⟩, event⟩
    | .error fatal => answer.1 = .error fatal

theorem onNewPayload_of_valid (σ : SetOrder B256) {tree tree₁ tree₂ : EngineTree X}
    {payload : ExecutionData} {maybeProof : Option X.Proof} {block : Block}
    (hformed : X.ensureWellFormedPayload payload = .ok block)
    (hclear : tree.checkInvalidAncestorWithHead (tree.payloadCheck block) block.hash
      = (none, tree₁))
    (hvalid : tree₁.insertBlock block maybeProof = (.ok (.inserted .valid), tree₂)) :
    AnswersConnection σ tree₂ block.hash (onNewPayload σ tree payload maybeProof) := by
  unfold onNewPayload AnswersConnection
  rw [hformed]
  simp only
  rw [show (if tree.lowestBufferedAncestorOr block.hash = block.hash then block.parentHash
    else tree.lowestBufferedAncestorOr block.hash) = tree.payloadCheck block from rfl, hclear]
  simp only [hvalid]
  generalize tryConnectBufferedBlocks σ tree₂ block.hash = connected
  match connected with
  | (.error fatal, tree₃) => exact ⟨rfl, rfl⟩
  | (.ok (), tree₃) => exact ⟨rfl, _, rfl⟩

theorem onDownloadedBlock_of_valid (σ : SetOrder B256) {tree tree₁ tree₂ : EngineTree X}
    {block : Block} {proof : X.Proof}
    (hclear : tree.checkInvalidAncestorWithHead (tree.lowestBufferedAncestorOr block.hash)
      block.hash = (none, tree₁))
    (hvalid : tree₁.insertBlock block (some proof) = (.ok (.inserted .valid), tree₂)) :
    AnswersConnection σ tree₂ block.hash (onDownloadedBlock σ tree block proof) := by
  unfold onDownloadedBlock AnswersConnection
  rw [hclear]
  simp only [hvalid]
  generalize tryConnectBufferedBlocks σ tree₂ block.hash = connected
  match connected with
  | (.error fatal, tree₃) => exact ⟨rfl, rfl⟩
  | (.ok (), tree₃) => exact ⟨rfl, _, rfl⟩

/-! ## What stays stored -/

/-- A chain update moves no block. -/
@[simp] theorem makeCanonical_blocksByHash (tree : EngineTree X) (target : B256) :
    (tree.makeCanonical target).provider.blocksByHash = tree.provider.blocksByHash := by
  unfold makeCanonical
  split
  · exact (ChainState.onChainUpdate_sameBlocks _ _ _).blocksByHash
  · rfl

@[simp] theorem makeCanonical_blockBuffer (tree : EngineTree X) (target : B256) :
    (tree.makeCanonical target).blockBuffer = tree.blockBuffer := by
  unfold makeCanonical
  split <;> rfl

@[simp] theorem makeCanonical_invalidHeaders (tree : EngineTree X) (target : B256) :
    (tree.makeCanonical target).invalidHeaders = tree.invalidHeaders := by
  unfold makeCanonical
  split <;> rfl

@[simp] theorem makeCanonical_forkchoiceStateTracker (tree : EngineTree X) (target : B256) :
    (tree.makeCanonical target).forkchoiceStateTracker = tree.forkchoiceStateTracker := by
  unfold makeCanonical
  split <;> rfl

theorem contains_makeCanonical {tree : EngineTree X} {target hash : B256} :
    (tree.makeCanonical target).provider.Contains hash ↔ tree.provider.Contains hash := by
  unfold ChainState.Contains
  rw [makeCanonical_blocksByHash]

/-- An insertion removes nothing from the provider. -/
theorem Inserts.contains {tree tree' : EngineTree X} {block : Block}
    {maybeProof : Option X.Proof} {result : Except InsertBlockErrorKind InsertPayloadOk}
    (h : Inserts tree block maybeProof result tree') {hash : B256}
    (hstored : tree.provider.Contains hash) : tree'.provider.Contains hash := by
  cases h with
  | verified => exact ChainState.contains_insertBlock.mpr (.inr hstored)
  | alreadySeen | malformed | disconnected | noProof | rejected => exact hstored

/-- A block that is in is stored. -/
theorem Inserts.contains_self {tree tree' : EngineTree X} {block : Block}
    {maybeProof : Option X.Proof} {result : InsertPayloadOk}
    (h : Inserts tree block maybeProof (.ok result) tree')
    (isIn : result = .inserted .valid ∨ result = .alreadySeen) :
    tree'.provider.Contains block.hash := by
  cases h with
  | alreadySeen known => exact known
  | verified => exact ChainState.contains_insertBlock.mpr (.inl rfl)
  | disconnected => simp at isIn
  | noProof => simp at isIn

theorem Inserts.invalidHeaders {tree tree' : EngineTree X} {block : Block}
    {maybeProof : Option X.Proof} {result : Except InsertBlockErrorKind InsertPayloadOk}
    (h : Inserts tree block maybeProof result tree') :
    tree'.invalidHeaders = tree.invalidHeaders := by
  cases h <;> rfl

theorem Fails.provider {tree tree' : EngineTree X} {block : Block} {error : InsertBlockErrorKind}
    {result : Except InsertBlockFatalError PayloadStatus}
    (h : Fails tree block error result tree') :
    tree'.provider = tree.provider := by
  cases h with
  | fatal => rfl
  | invalid _ peeks => exact peeks.provider

theorem Fails.blockBuffer {tree tree' : EngineTree X} {block : Block}
    {error : InsertBlockErrorKind} {result : Except InsertBlockFatalError PayloadStatus}
    (h : Fails tree block error result tree') : tree'.blockBuffer = tree.blockBuffer := by
  cases h with
  | fatal => rfl
  | invalid _ peeks => exact peeks.blockBuffer

/-- **One block of the descendants**: it is inserted, made canonical if it is the
sync target, or marked invalid; or it stops the loop. -/
inductive Connects (tree : EngineTree X) (child : Block) (proof : X.Proof) :
    Except InsertBlockFatalError Unit → EngineTree X → Prop
  | inserted {result tree₁} (inserts : Inserts tree child (some proof) (.ok result) tree₁)
      (rest : ¬(tree₁.isSyncTargetHead child.hash = true ∧ result = .inserted .valid)) :
      Connects tree child proof (.ok ()) tree₁
  | syncTarget {tree₁} (inserts : Inserts tree child (some proof) (.ok (.inserted .valid)) tree₁)
      (target : tree₁.isSyncTargetHead child.hash = true) :
      Connects tree child proof (.ok ()) (tree₁.makeCanonical child.hash)
  | failed {tree₁ tree₂ kind status} (inserts : Inserts tree child (some proof) (.error kind) tree₁)
      (fails : Fails tree₁ child kind (.ok status) tree₂) :
      Connects tree child proof (.ok ()) tree₂
  | failedFatally {tree₁ tree₂ kind fatal}
      (inserts : Inserts tree child (some proof) (.error kind) tree₁)
      (fails : Fails tree₁ child kind (.error fatal) tree₂) :
      Connects tree child proof (.error fatal) tree₂

/-- One round of the loop. -/
def connectBlock (tree : EngineTree X) (child : Block) (proof : X.Proof) :
    Except InsertBlockFatalError Unit × EngineTree X :=
  match tree.insertBlock child (some proof) with
  | (.ok result, tree) =>
      (.ok (), if tree.isSyncTargetHead child.hash && result = .inserted .valid then
          tree.makeCanonical child.hash
        else tree)
  | (.error kind, tree) =>
      match tree.onInsertBlockError child kind with
      | (.error fatal, tree) => (.error fatal, tree)
      | (.ok _, tree) => (.ok (), tree)

/-- The loop goes on unless a round was fatal. -/
theorem connectBlocks_cons_eq (tree : EngineTree X) (child : Block) (proof : X.Proof)
    (blocks : List (Block × X.Proof)) :
    connectBlocks ((child, proof) :: blocks) tree
      = match tree.connectBlock child proof with
        | (.ok (), tree) => connectBlocks blocks tree
        | (.error fatal, tree) => (.error fatal, tree) := by
  rw [connectBlocks, connectBlock]
  generalize tree.insertBlock child (some proof) = inserted
  rcases inserted with ⟨kind | result, tree₁⟩
  · simp only
    generalize tree₁.onInsertBlockError child kind = failed
    rcases failed with ⟨fatal | status, tree₂⟩
    · rfl
    · rfl
  · rfl

theorem connectBlock_cases (tree : EngineTree X) (child : Block) (proof : X.Proof) :
    Connects tree child proof (tree.connectBlock child proof).1
      (tree.connectBlock child proof).2 := by
  have hinserts := insertBlock_cases tree child (some proof)
  unfold connectBlock
  generalize tree.insertBlock child (some proof) = inserted at hinserts
  match inserted, hinserts with
  | (.ok result, tree₁), hinserts =>
      by_cases htarget : tree₁.isSyncTargetHead child.hash = true ∧ result = .inserted .valid
      · obtain ⟨hhead, rfl⟩ := htarget
        simp only [hhead, decide_true, Bool.and_self, if_true]
        exact .syncTarget hinserts hhead
      · have hrest :
          ¬(tree₁.isSyncTargetHead child.hash && decide (result = .inserted .valid)) = true := by
          rwa [Bool.and_eq_true, decide_eq_true_eq]
        simp only [if_neg hrest]
        exact .inserted hinserts htarget
  | (.error kind, tree₁), hinserts =>
      have hfails := onInsertBlockError_cases tree₁ child kind
      simp only
      generalize tree₁.onInsertBlockError child kind = failed at hfails
      match failed, hfails with
      | (.ok status, tree₂), hfails => exact .failed hinserts hfails
      | (.error fatal, tree₂), hfails => exact .failedFatally hinserts hfails

/-- The loop handles its first block, and goes on unless that was fatal. -/
theorem connectBlocks_cons (tree : EngineTree X) (child : Block) (proof : X.Proof)
    (blocks : List (Block × X.Proof)) :
    (∃ tree₁, Connects tree child proof (.ok ()) tree₁ ∧
        connectBlocks ((child, proof) :: blocks) tree = connectBlocks blocks tree₁) ∨
      ∃ fatal tree₁, Connects tree child proof (.error fatal) tree₁ ∧
        connectBlocks ((child, proof) :: blocks) tree = (.error fatal, tree₁) := by
  have hconnects := connectBlock_cases tree child proof
  rw [connectBlocks_cons_eq]
  generalize tree.connectBlock child proof = round at hconnects
  match round, hconnects with
  | (.ok (), tree₁), hconnects => exact .inl ⟨tree₁, hconnects, rfl⟩
  | (.error fatal, tree₁), hconnects => exact .inr ⟨fatal, tree₁, hconnects, rfl⟩

theorem Connects.contains {tree tree' : EngineTree X} {child : Block} {proof : X.Proof}
    {result : Except InsertBlockFatalError Unit} (h : Connects tree child proof result tree')
    {hash : B256} (hstored : tree.provider.Contains hash) : tree'.provider.Contains hash := by
  cases h with
  | inserted inserts => exact inserts.contains hstored
  | syncTarget inserts => exact contains_makeCanonical.mpr (inserts.contains hstored)
  | failed inserts fails
  | failedFatally inserts fails =>
      rw [fails.provider]
      exact inserts.contains hstored

/-- **The invariant rule of the loop.**  What handling one block preserves holds at
the end, of the blocks that are left; none are, unless a fatal error ended the
loop. -/
theorem connectBlocks_preserves (Inv : List (Block × X.Proof) → EngineTree X → Prop)
    (hstep : ∀ {child proof blocks tree tree' result}, Inv ((child, proof) :: blocks) tree →
      Connects tree child proof result tree' → Inv blocks tree')
    (blocks : List (Block × X.Proof)) {tree : EngineTree X} (h : Inv blocks tree) :
    ∃ rest, Inv rest (connectBlocks blocks tree).2 ∧
      ((connectBlocks blocks tree).1 = .ok () → rest = []) := by
  induction blocks generalizing tree with
  | nil => exact ⟨[], h, fun _ => rfl⟩
  | cons pair blocks ih =>
      obtain ⟨child, proof⟩ := pair
      rcases connectBlocks_cons tree child proof blocks with
        ⟨tree₁, hconnects, heq⟩ | ⟨fatal, tree₁, hconnects, heq⟩
      · rw [heq]
        exact ih (hstep h hconnects)
      · rw [heq]
        exact ⟨blocks, hstep h hconnects, nofun⟩

/-- Connecting descendants removes nothing from the provider. -/
theorem connectBlocks_contains (blocks : List (Block × X.Proof)) {tree : EngineTree X}
    {hash : B256} (hstored : tree.provider.Contains hash) :
    (connectBlocks blocks tree).2.provider.Contains hash := by
  obtain ⟨_, hcontains, -⟩ := connectBlocks_preserves
    (fun _ tree => tree.provider.Contains hash) (fun h hconnects => hconnects.contains h) blocks
    hstored
  exact hcontains

theorem tryConnectBufferedBlocks_eq (σ : SetOrder B256) (tree : EngineTree X) (parentHash : B256) :
    tryConnectBufferedBlocks σ tree parentHash
      = connectBlocks (tree.blockBuffer.removeBlockWithChildren σ parentHash).1
        { tree with
          blockBuffer := (tree.blockBuffer.removeBlockWithChildren σ parentHash).2 } := rfl

theorem tryConnectBufferedBlocks_contains {σ : SetOrder B256} {tree tree' : EngineTree X}
    {parentHash : B256} {result : Except InsertBlockFatalError Unit}
    (h : tryConnectBufferedBlocks σ tree parentHash = (result, tree')) {hash : B256}
    (hstored : tree.provider.Contains hash) : tree'.provider.Contains hash := by
  rw [tryConnectBufferedBlocks_eq] at h
  have hconnect := connectBlocks_contains
    (tree.blockBuffer.removeBlockWithChildren σ parentHash).1
    (show { tree with blockBuffer :=
      (tree.blockBuffer.removeBlockWithChildren σ parentHash).2 }.provider.Contains hash
      from hstored)
  rwa [h] at hconnect

/-! ### The sync target -/

theorem Checks.forkchoiceStateTracker {tree tree' : EngineTree X} {check head : B256}
    {status : Option PayloadStatus} (h : Checks tree check head status tree') :
    tree'.forkchoiceStateTracker = tree.forkchoiceStateTracker := by
  match h with
  | .clear peeks _ => exact peeks.forkchoiceStateTracker
  | .invalid peeks _ _ => exact peeks.forkchoiceStateTracker

theorem Inserts.forkchoiceStateTracker {tree tree' : EngineTree X} {block : Block}
    {maybeProof : Option X.Proof} {result : Except InsertBlockErrorKind InsertPayloadOk}
    (h : Inserts tree block maybeProof result tree') :
    tree'.forkchoiceStateTracker = tree.forkchoiceStateTracker := by
  cases h <;> rfl

theorem Fails.forkchoiceStateTracker {tree tree' : EngineTree X} {block : Block}
    {error : InsertBlockErrorKind} {result : Except InsertBlockFatalError PayloadStatus}
    (h : Fails tree block error result tree') :
    tree'.forkchoiceStateTracker = tree.forkchoiceStateTracker := by
  match h with
  | .fatal _ => rfl
  | .invalid _ peeks => exact peeks.forkchoiceStateTracker

theorem Connects.forkchoiceStateTracker {tree tree' : EngineTree X} {child : Block}
    {proof : X.Proof} {result : Except InsertBlockFatalError Unit}
    (h : Connects tree child proof result tree') :
    tree'.forkchoiceStateTracker = tree.forkchoiceStateTracker := by
  match h with
  | .inserted inserts _ => exact inserts.forkchoiceStateTracker
  | .syncTarget inserts _ =>
      rw [makeCanonical_forkchoiceStateTracker, inserts.forkchoiceStateTracker]
  | .failed inserts fails | .failedFatally inserts fails =>
      exact fails.forkchoiceStateTracker.trans inserts.forkchoiceStateTracker

/-- Connecting descendants does not touch the sync target. -/
theorem tryConnectBufferedBlocks_forkchoiceStateTracker (σ : SetOrder B256)
    (tree : EngineTree X) (parentHash : B256) :
    (tryConnectBufferedBlocks σ tree parentHash).2.forkchoiceStateTracker
      = tree.forkchoiceStateTracker := by
  obtain ⟨_, hkept, -⟩ := connectBlocks_preserves
    (fun _ tree' => tree'.forkchoiceStateTracker = tree.forkchoiceStateTracker)
    (fun h hconnects => hconnects.forkchoiceStateTracker.trans h)
    (tree.blockBuffer.removeBlockWithChildren σ parentHash).1
    (show { tree with
      blockBuffer := (tree.blockBuffer.removeBlockWithChildren σ parentHash).2
      }.forkchoiceStateTracker = tree.forkchoiceStateTracker from rfl)
  exact hkept

/-- Nor does handling a block. -/
theorem Handles.forkchoiceStateTracker {σ : SetOrder B256} {tree tree' : EngineTree X}
    {check : B256} {block : Block} {maybeProof : Option X.Proof}
    {result : Except InsertBlockFatalError (TreeOutcome PayloadStatus)}
    (h : Handles σ tree check block maybeProof result tree') :
    tree'.forkchoiceStateTracker = tree.forkchoiceStateTracker := by
  have hinserts : ∀ {status result tree₁ tree₂}, Checks tree check block.hash status tree₁ →
      Inserts tree₁ block maybeProof result tree₂ →
        tree₂.forkchoiceStateTracker = tree.forkchoiceStateTracker :=
    fun checks inserts => inserts.forkchoiceStateTracker.trans checks.forkchoiceStateTracker
  have hconnects : ∀ {tree₂ tree₃ : EngineTree X} {result},
      tryConnectBufferedBlocks σ tree₂ block.hash = (result, tree₃) →
        tree₃.forkchoiceStateTracker = tree₂.forkchoiceStateTracker := by
    intro tree₂ tree₃ result connects
    have hkept := tryConnectBufferedBlocks_forkchoiceStateTracker σ tree₂ block.hash
    rwa [connects] at hkept
  match h with
  | .invalidAncestor checks => exact checks.forkchoiceStateTracker
  | .connected checks inserts _ connects _ | .connectFailed checks inserts _ connects =>
      exact (hconnects connects).trans (hinserts checks inserts)
  | .seen checks inserts | .disconnected checks inserts | .noProof checks inserts =>
      exact hinserts checks inserts
  | .failed checks inserts fails | .failedFatally checks inserts fails =>
      exact fails.forkchoiceStateTracker.trans (hinserts checks inserts)

/-- **Valid answers are true**: the hash they name is the block's, and it is
stored. -/
theorem Handles.valid {σ : SetOrder B256} {tree tree' : EngineTree X} {check : B256}
    {block : Block} {maybeProof : Option X.Proof} {outcome : TreeOutcome PayloadStatus}
    (h : Handles σ tree check block maybeProof (.ok outcome) tree')
    (hvalid : outcome.outcome.status = .valid) :
    outcome.outcome.latestValidHash = some block.hash ∧ tree'.provider.Contains block.hash := by
  cases h with
  | invalidAncestor checks =>
      cases checks with
      | invalid _ _ answer => cases answer.symm.trans hvalid
  | connected _ inserts isIn connects =>
      exact ⟨rfl, tryConnectBufferedBlocks_contains connects (inserts.contains_self isIn)⟩
  | seen _ inserts => exact ⟨rfl, inserts.contains_self (.inr rfl)⟩
  | disconnected => cases hvalid
  | noProof => cases hvalid
  | failed _ _ fails =>
      cases fails with
      | invalid => cases hvalid

/-- A valid answer to a new payload names its block, which is stored. -/
theorem onNewPayload_valid {σ : SetOrder B256} {tree tree' : EngineTree X}
    {payload : ExecutionData} {maybeProof : Option X.Proof} {outcome : TreeOutcome PayloadStatus}
    (h : onNewPayload σ tree payload maybeProof = (.ok outcome, tree'))
    (hvalid : outcome.outcome.status = .valid) :
    ∃ block, X.ensureWellFormedPayload payload = .ok block ∧
      outcome.outcome.latestValidHash = some block.hash ∧ tree'.provider.Contains block.hash := by
  cases hformed : X.ensureWellFormedPayload payload with
  | error error =>
      obtain ⟨latestValidHash, tree₁, -, heq⟩ := onNewPayload_malformed σ tree maybeProof hformed
      rw [heq] at h
      cases h
      cases hvalid
  | ok block =>
      have hhandles := onNewPayload_cases σ tree maybeProof hformed
      rw [h] at hhandles
      exact ⟨block, rfl, hhandles.valid hvalid⟩

/-- A valid answer for a downloaded block names the block, which is stored. -/
theorem onDownloadedBlock_valid {σ : SetOrder B256} {tree tree' : EngineTree X} {block : Block}
    {proof : X.Proof} {outcome : TreeOutcome PayloadStatus}
    (h : onDownloadedBlock σ tree block proof = (.ok outcome, tree'))
    (hvalid : outcome.outcome.status = .valid) :
    outcome.outcome.latestValidHash = some block.hash ∧ tree'.provider.Contains block.hash := by
  have hhandles := onDownloadedBlock_cases σ tree block proof
  rw [h] at hhandles
  exact hhandles.valid hvalid

/-! ## Fork choice -/

/-- The header of a chain found by walking back is its tip. -/
theorem HeadChain.ofWalk_tip (head : SealedHeader) (below : List SealedHeader) :
    (HeadChain.ofWalk head below).headers.getLast
    (HeadChain.ofWalk head below).nonempty = head := by
  simp [HeadChain.ofWalk]

/-- A chain update found for a head leads to that head. -/
theorem onNewHead_tip {tree : EngineTree X} {newHead : B256} {update : NewCanonicalChain}
    (h : tree.onNewHead newHead = some update) :
    tree.provider.sealedHeader newHead = some update.tip := by
  unfold onNewHead at h
  cases hstored : tree.provider.sealedHeader newHead with
  | none => simp [hstored] at h
  | some header =>
      have htip : update.tip = header := by
        simp only [hstored] at h
        split at h
        · cases h
        · split at h
          · cases h
            exact HeadChain.ofWalk_tip header _
          · split at h
            · cases h
            · split at h
              · cases h
              · cases h
                exact HeadChain.ofWalk_tip header _
      rw [htip]

theorem onCanonicalChainUpdate_head {tree : EngineTree X} {newHead : B256}
    {update : NewCanonicalChain} (h : tree.onNewHead newHead = some update) :
    (tree.onCanonicalChainUpdate update).canonicalHead.hash = newHead :=
  ChainState.hash_of_sealedHeader (onNewHead_tip h)

/-- The clean-up of an applied fork-choice update. -/
def cleanUp (σ : SetOrder B256) (tree : EngineTree X) (finalizedHash : B256) : EngineTree X :=
  let tree := { tree with provider := tree.provider.onFinalized finalizedHash }
  match tree.provider.blockNumber finalizedHash with
  | some finalizedNumber =>
      { tree with blockBuffer := tree.blockBuffer.evictOldBlocks σ finalizedNumber }
  | none => tree

/-- The clean-up prunes the provider and evicts from the buffer. -/
theorem cleanUp_provider (σ : SetOrder B256) (tree : EngineTree X) (finalizedHash : B256) :
    (cleanUp σ tree finalizedHash).provider = tree.provider.onFinalized finalizedHash := by
  unfold cleanUp
  simp only
  split <;> rfl

theorem cleanUp_invalidHeaders (σ : SetOrder B256) (tree : EngineTree X) (finalizedHash : B256) :
    (cleanUp σ tree finalizedHash).invalidHeaders = tree.invalidHeaders := by
  unfold cleanUp
  simp only
  split <;> rfl

/-- The finalized and the safe hash are zero or canonical. -/
structure Consistent (provider : ChainState X.Proof) (state : ForkchoiceState) : Prop where
  finalized : state.finalizedBlockHash = 0 ∨ provider.isHashCanonical state.finalizedBlockHash
  safe : state.safeBlockHash = 0 ∨ provider.isHashCanonical state.safeBlockHash

theorem ensureConsistent_ok {tree : EngineTree X} {state : ForkchoiceState} {u : Unit}
    (h : tree.ensureConsistentForkchoiceState state = .ok u) :
    Consistent tree.provider state := by
  unfold ensureConsistentForkchoiceState at h
  split at h
  · cases h
  · next hfinalized =>
      split at h
      · cases h
      · next hsafe =>
          rw [not_and_or, not_not, not_not] at hfinalized hsafe
          exact ⟨hfinalized, hsafe⟩

theorem ensureConsistent_error {tree : EngineTree X} {state : ForkchoiceState}
    {outcome : OnForkChoiceUpdated}
    (h : tree.ensureConsistentForkchoiceState state = .error outcome) :
    outcome = .invalidState := by
  unfold ensureConsistentForkchoiceState at h
  split at h
  · cases h
    rfl
  · split at h
    · cases h
      rfl
    · cases h

/-- The answer that the head is valid. -/
def validHead (state : ForkchoiceState) : OnForkChoiceUpdated :=
  .valid ⟨.valid, some state.headBlockHash⟩

/-- The answers of a fork-choice update whose head is canonical now. -/
inductive AnswersHead (consistent : Prop) (state : ForkchoiceState) :
    Except ProviderError (TreeOutcome OnForkChoiceUpdated) → Prop
  | inconsistent : AnswersHead consistent state (.ok (.new .invalidState))
  | headerNotFound : AnswersHead consistent state (.error (.headerNotFound state.headBlockHash))
  | invalidAttributes (h : consistent) :
      AnswersHead consistent state (.ok (.new .invalidPayloadAttributes))
  | valid (h : consistent) : AnswersHead consistent state (.ok (.new (validHead state)))

/-- The ways out of `on_forkchoice_updated`. -/
inductive Updates (σ : SetOrder B256) (tree : EngineTree X) (state : ForkchoiceState) :
    Except ProviderError (TreeOutcome OnForkChoiceUpdated) → EngineTree X → Prop
  /-- The head is zero, or has an invalid ancestor. -/
  | refused {tree₁ updated} (peeks : Peeks tree tree₁)
      (answer : updated = .invalidState ∨
        ∃ status message entry, updated = .withInvalid status ∧ status.status = .invalid message ∧
          (X.invalidHeaderCache.get tree.invalidHeaders
            (tree.lowestBufferedAncestorOr state.headBlockHash)).1 = some entry) :
      Updates σ tree state (.ok (.new updated)) tree₁
  /-- The head is the canonical head already. -/
  | atHead {tree₁ result} (peeks : Peeks tree tree₁)
      (isHead : tree₁.canonicalHead.hash = state.headBlockHash)
      (answer : AnswersHead (Consistent tree₁.provider state) state result) :
      Updates σ tree state result tree₁
  /-- The chain was updated, and safe or finalized are not on it. -/
  | inconsistent {tree₁ update} (peeks : Peeks tree tree₁)
      (notHead : tree₁.canonicalHead.hash ≠ state.headBlockHash)
      (found : tree₁.onNewHead state.headBlockHash = some update) :
      Updates σ tree state (.ok (.new .invalidState)) (tree₁.onCanonicalChainUpdate update)
  /-- The chain was updated. -/
  | applied {tree₁ update result} (peeks : Peeks tree tree₁)
      (notHead : tree₁.canonicalHead.hash ≠ state.headBlockHash)
      (found : tree₁.onNewHead state.headBlockHash = some update)
      (consistent : Consistent (tree₁.onCanonicalChainUpdate update).provider state)
      (answer : result = .ok (.new (validHead state)) ∨
        result = .ok (.new .invalidPayloadAttributes)) :
      Updates σ tree state result
        (cleanUp σ (tree₁.onCanonicalChainUpdate update) state.finalizedBlockHash)
  /-- There is no chain to the head, and the head is known. -/
  | known {tree₁ header} (peeks : Peeks tree tree₁)
      (notHead : tree₁.canonicalHead.hash ≠ state.headBlockHash)
      (missing : tree₁.onNewHead state.headBlockHash = none)
      (stored : tree₁.provider.sealedHeader state.headBlockHash = some header) :
      Updates σ tree state (.ok (.new (validHead state))) tree₁
  /-- The head is unknown. -/
  | syncing {tree₁} (peeks : Peeks tree tree₁)
      (missed : (X.invalidHeaderCache.get tree.invalidHeaders
        (tree.lowestBufferedAncestorOr state.headBlockHash)).1 = none)
      (unknown : tree₁.provider.sealedHeader state.headBlockHash = none) :
      Updates σ tree state (.ok ⟨.valid ⟨.syncing, none⟩, tree₁.syncDownload state⟩) tree₁

theorem validatePayloadAttributes_some {attrs : PayloadAttributes} {head : Header}
    {state : ForkchoiceState} {version : UInt8} {updated : OnForkChoiceUpdated}
    (h : validatePayloadAttributes X attrs head state version = some updated) :
    updated = .invalidPayloadAttributes := by
  unfold validatePayloadAttributes at h
  split at h
  · cases h
    rfl
  · split at h <;> cases h
    rfl

theorem onForkchoiceUpdated_cases (σ : SetOrder B256) (tree : EngineTree X)
    (state : ForkchoiceState) (payloadAttrs : Option PayloadAttributes) (version : UInt8) :
    Updates σ tree state (onForkchoiceUpdated σ tree state payloadAttrs version).1
      (onForkchoiceUpdated σ tree state payloadAttrs version).2 := by
  have hchecks := checkInvalidAncestor_cases tree
    (tree.lowestBufferedAncestorOr state.headBlockHash)
  unfold onForkchoiceUpdated preValidateForkchoiceUpdate
  by_cases hzero : state.headBlockHash = 0
  · rw [if_pos hzero]
    exact .refused (.refl tree) (.inl rfl)
  · rw [if_neg hzero]
    generalize tree.checkInvalidAncestor (tree.lowestBufferedAncestorOr state.headBlockHash)
      = checked at hchecks ⊢
    obtain ⟨status, tree₁⟩ := checked
    cases hchecks with
    | invalid peeks found answer => exact .refused peeks (.inr ⟨_, _, _, rfl, answer, found⟩)
    | clear peeks missed =>
        simp only
        by_cases hhead : tree₁.canonicalHead.hash = state.headBlockHash
        · rw [if_pos hhead]
          refine .atHead ?_ ?_ ?_
          all_goals
            split
            · next outcome herror =>
                rw [ensureConsistent_error herror]
                first
                | exact peeks
                | exact hhead
                | exact .inconsistent
            · next hok =>
                have hconsistent := ensureConsistent_ok hok
                split
                · first
                  | exact peeks
                  | exact hhead
                  | exact .valid hconsistent
                · split
                  · first
                    | exact peeks
                    | exact hhead
                    | exact .headerNotFound
                  · split
                    · next hattrs =>
                        rw [validatePayloadAttributes_some hattrs]
                        first
                        | exact peeks
                        | exact hhead
                        | exact .invalidAttributes hconsistent
                    · first
                      | exact peeks
                      | exact hhead
                      | exact .valid hconsistent
        · rw [if_neg hhead]
          split
          · next update hupdate =>
              split
              · next outcome herror =>
                  rw [ensureConsistent_error herror]
                  exact .inconsistent peeks hhead hupdate
              · next hok =>
                  have hconsistent := ensureConsistent_ok hok
                  split
                  · exact .applied peeks hhead hupdate hconsistent (.inl rfl)
                  · split
                    · next hattrs =>
                        rw [validatePayloadAttributes_some hattrs]
                        exact .applied peeks hhead hupdate hconsistent (.inr rfl)
                    · exact .applied peeks hhead hupdate hconsistent (.inl rfl)
          · next hmissing =>
              split
              · next header hstored => exact .known peeks hhead hmissing hstored
              · next hunknown => exact .syncing peeks missed hunknown

/-- The status that the answer to a fork-choice update carries. -/
def payloadStatus : OnForkChoiceUpdated → Option PayloadStatus
  | .valid status => some status
  | .withInvalid status => some status
  | .invalidState => none
  | .invalidPayloadAttributes => none

/-- An invalid answer to a fork-choice update is prepared from the entry of the checked
hash. -/
theorem onForkchoiceUpdated_condemns {σ : SetOrder B256} {tree tree' : EngineTree X}
    {state : ForkchoiceState} {payloadAttrs : Option PayloadAttributes} {version : UInt8}
    {outcome : TreeOutcome OnForkChoiceUpdated} {status : PayloadStatus}
    (h : onForkchoiceUpdated σ tree state payloadAttrs version = (.ok outcome, tree'))
    (hcarries : payloadStatus outcome.outcome = some status)
    (hinvalid : ∃ message, status.status = .invalid message) :
    ∃ entry, (X.invalidHeaderCache.get tree.invalidHeaders
        (tree.lowestBufferedAncestorOr state.headBlockHash)).1 = some entry ∧
      status = (prepareInvalidResponse { tree with
        invalidHeaders := (X.invalidHeaderCache.get tree.invalidHeaders
          (tree.lowestBufferedAncestorOr state.headBlockHash)).2 } entry.parent).1 := by
  obtain ⟨message, hinvalid⟩ := hinvalid
  have hvalid : payloadStatus (validHead state) ≠ some status := by
    rintro ⟨⟩
    cases hinvalid
  have hupdates := onForkchoiceUpdated_cases σ tree state payloadAttrs version
  rw [h] at hupdates
  simp only at hupdates
  generalize hresult : (.ok outcome : Except ProviderError (TreeOutcome OnForkChoiceUpdated))
    = result at hupdates
  cases hupdates with
  | refused _ answer =>
      cases hresult
      rcases answer with rfl | ⟨_, _, entry, -, -, hfound⟩
      · cases hcarries
      · -- only the check of the head refuses with a status
        refine ⟨entry, hfound, ?_⟩
        unfold onForkchoiceUpdated preValidateForkchoiceUpdate checkInvalidAncestor at h
        generalize X.invalidHeaderCache.get tree.invalidHeaders
          (tree.lowestBufferedAncestorOr state.headBlockHash) = looked at h hfound
        obtain ⟨_, s⟩ := looked
        subst hfound
        simp only at h
        split at h
        · next heq =>
            split at heq
            · cases heq
              cases h
              cases hcarries
            · cases heq
              cases h
              exact (Option.some.inj hcarries).symm
        · next heq =>
            split at heq
            · cases heq
            · cases heq
  | atHead _ _ answer =>
      cases answer with
      | valid =>
          cases hresult
          exact absurd hcarries hvalid
      | inconsistent | invalidAttributes =>
          cases hresult
          cases hcarries
      | headerNotFound => cases hresult
  | inconsistent =>
      cases hresult
      cases hcarries
  | applied _ _ _ _ answer =>
      rcases answer with rfl | rfl
      · cases hresult
        exact absurd hcarries hvalid
      · cases hresult
        cases hcarries
  | known =>
      cases hresult
      exact absurd hcarries hvalid
  | syncing =>
      cases hresult
      cases hcarries
      cases hinvalid

end EngineTree

end ZkRess
