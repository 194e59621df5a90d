import ZkRess.Engine.SmallWorld

/-!
# Blocks known to be invalid

A block comes by a new payload, as a download, or as the head of a fork-choice
update, and each of the three looks one hash up in the cache of invalid headers.
For a buffered block it is the parent of the lowest buffered ancestor.  For any
other a new payload looks up the parent; the other two look up the block itself,
and a fork-choice update could do no more, since it brings nothing but the hash
of its head.

`refused_of_consulted` says that a block is refused on each path whose hash is
found.  It does not follow that a block known under the other hash is refused:
`unknown_head_of_invalid_parent` is a run in which an update is answered with
`Syncing` although the parent of its head is known to be invalid.
-/

namespace ZkRess

open Foundation ConsensusEngine

variable {X : Externals}

namespace EngineTree

/-- The cache does not drop the entry for this hash when it is looked up. -/
def Retains (tree : EngineTree X) (hash : B256) : Prop :=
  X.invalidHeaderCache.Cached tree.invalidHeaders hash →
    ∃ entry, (X.invalidHeaderCache.get tree.invalidHeaders hash).1 = some entry

/-- **Refused**: the answer is `Invalid`, and provider and buffer are left alone. -/
structure RefusesBlock (tree : EngineTree X)
    (handled : Except InsertBlockFatalError (TreeOutcome PayloadStatus) × EngineTree X) : Prop where
  invalid : ∃ outcome message, handled.1 = .ok outcome ∧ outcome.outcome.status = .invalid message
  provider : handled.2.provider = tree.provider
  blockBuffer : handled.2.blockBuffer = tree.blockBuffer

/-- The same for a fork-choice update. -/
structure RefusesHead (tree : EngineTree X)
    (handled : Except ProviderError (TreeOutcome OnForkChoiceUpdated) × EngineTree X) : Prop where
  invalid : ∃ outcome status message, handled.1 = .ok outcome ∧
    outcome.outcome = .withInvalid status ∧ status.status = .invalid message
  provider : handled.2.provider = tree.provider
  blockBuffer : handled.2.blockBuffer = tree.blockBuffer

/-- A block whose checked hash is found is refused. -/
private theorem Handles.refuses {σ : SetOrder B256} {tree tree' : EngineTree X} {check : B256}
    {block : Block} {maybeProof : Option X.Proof}
    {result : Except InsertBlockFatalError (TreeOutcome PayloadStatus)}
    (h : Handles σ tree check block maybeProof result tree')
    (hfound : ∃ entry, (X.invalidHeaderCache.get tree.invalidHeaders check).1 = some entry) :
    RefusesBlock tree (result, tree') := by
  obtain ⟨entry, hfound⟩ := hfound
  have hclear : ∀ {tree₁}, ¬Checks tree check block.hash none tree₁ := by
    intro tree₁ checks
    cases checks with
    | clear _ missed => cases hfound.symm.trans missed
  cases h with
  | @invalidAncestor status _ checks =>
      cases checks with
      | invalid peeks _ answer =>
          exact ⟨⟨.new status, _, rfl, answer⟩, peeks.provider, peeks.blockBuffer⟩
  | connected checks => exact absurd checks hclear
  | connectFailed checks => exact absurd checks hclear
  | seen checks => exact absurd checks hclear
  | disconnected checks => exact absurd checks hclear
  | noProof checks => exact absurd checks hclear
  | failed checks => exact absurd checks hclear
  | failedFatally checks => exact absurd checks hclear

private theorem onForkchoiceUpdated_refuses (σ : SetOrder B256) (tree : EngineTree X)
    {state : ForkchoiceState} (payloadAttrs : Option PayloadAttributes) (version : UInt8)
    (hhead : state.headBlockHash ≠ 0)
    (hfound : ∃ entry, (X.invalidHeaderCache.get tree.invalidHeaders
      (tree.lowestBufferedAncestorOr state.headBlockHash)).1 = some entry) :
    RefusesHead tree (onForkchoiceUpdated σ tree state payloadAttrs version) := by
  obtain ⟨entry, hfound⟩ := hfound
  have hchecks := checkInvalidAncestor_cases tree
    (tree.lowestBufferedAncestorOr state.headBlockHash)
  unfold onForkchoiceUpdated preValidateForkchoiceUpdate
  rw [if_neg hhead]
  generalize tree.checkInvalidAncestor (tree.lowestBufferedAncestorOr state.headBlockHash)
    = checked at hchecks ⊢
  obtain ⟨answer, tree₁⟩ := checked
  cases hchecks with
  | clear _ missed => cases hfound.symm.trans missed
  | invalid peeks _ answer =>
      exact ⟨⟨_, _, _, rfl, rfl, answer⟩, peeks.provider, peeks.blockBuffer⟩

/-- The hashes consulted for a block that is not buffered. -/
theorem consulted_of_not_buffered {tree : EngineTree X} {block : Block}
    (h : tree.blockBuffer.blocks.get block.hash = none) :
    tree.lowestBufferedAncestorOr block.hash = block.hash ∧
      tree.payloadCheck block = block.parentHash := by
  have hlowest : tree.blockBuffer.lowestAncestor block.hash = none := by
    rw [BlockBuffer.lowestAncestor, h, Option.map_none]
  have hor : tree.lowestBufferedAncestorOr block.hash = block.hash := by
    rw [lowestBufferedAncestorOr, hlowest]
  exact ⟨hor, if_pos hor⟩

/-- **Refusal by the consulted hash.** -/
structure RefusedWhenConsulted (tree : EngineTree X) (block : Block) : Prop where
  newPayload : ∀ σ payload maybeProof, X.ensureWellFormedPayload payload = .ok block →
    tree.Retains (tree.payloadCheck block) →
      X.invalidHeaderCache.Cached tree.invalidHeaders (tree.payloadCheck block) →
        RefusesBlock tree (onNewPayload σ tree payload maybeProof)
  downloadedBlock : ∀ σ proof, tree.Retains (tree.lowestBufferedAncestorOr block.hash) →
    X.invalidHeaderCache.Cached tree.invalidHeaders (tree.lowestBufferedAncestorOr block.hash) →
      RefusesBlock tree (onDownloadedBlock σ tree block proof)
  head : ∀ σ state payloadAttrs version, state.headBlockHash = block.hash → block.hash ≠ 0 →
    tree.Retains (tree.lowestBufferedAncestorOr block.hash) →
      X.invalidHeaderCache.Cached tree.invalidHeaders (tree.lowestBufferedAncestorOr block.hash) →
        RefusesHead tree (onForkchoiceUpdated σ tree state payloadAttrs version)
  /-- What is consulted for a block that is not buffered: its parent for a new
  payload, else the block itself. -/
  notBuffered : tree.blockBuffer.blocks.get block.hash = none →
    tree.lowestBufferedAncestorOr block.hash = block.hash ∧
      tree.payloadCheck block = block.parentHash
  /-- What is consulted for a buffered block. -/
  buffered : ∀ lowest, tree.blockBuffer.lowestAncestor block.hash = some lowest →
    lowest.parentHash ≠ block.hash →
      tree.lowestBufferedAncestorOr block.hash = lowest.parentHash ∧
        tree.payloadCheck block = lowest.parentHash

/-- **A block is refused on every path that finds the hash it consults**, in every
state of the tree. -/
theorem refused_of_consulted (tree : EngineTree X) (block : Block) :
    RefusedWhenConsulted tree block where
  newPayload σ payload maybeProof hformed hretains hcached :=
    (onNewPayload_cases σ tree maybeProof hformed).refuses (hretains hcached)
  downloadedBlock σ proof hretains hcached :=
    (onDownloadedBlock_cases σ tree block proof).refuses (hretains hcached)
  head σ state payloadAttrs version hhead hne hretains hcached := by
    rw [← hhead] at hretains hcached hne
    exact onForkchoiceUpdated_refuses σ tree payloadAttrs version hne (hretains hcached)
  notBuffered := consulted_of_not_buffered
  buffered lowest hlowest hne := by
    have hor : tree.lowestBufferedAncestorOr block.hash = lowest.parentHash := by
      rw [lowestBufferedAncestorOr, hlowest]
    exact ⟨hor, by rw [payloadCheck, hor, if_neg hne]⟩

/-- What it would be for a block to be refused on every path because its own hash
or its parent's is known to be invalid. -/
structure StaysInvalid (tree : EngineTree X) (block : Block) : Prop where
  newPayload : ∀ σ payload maybeProof, X.ensureWellFormedPayload payload = .ok block →
    RefusesBlock tree (onNewPayload σ tree payload maybeProof)
  downloadedBlock : ∀ σ proof, RefusesBlock tree (onDownloadedBlock σ tree block proof)
  head : ∀ σ state payloadAttrs version, state.headBlockHash = block.hash →
    RefusesHead tree (onForkchoiceUpdated σ tree state payloadAttrs version)

end EngineTree

namespace SmallWorld

open EngineTree

/-- A block on the genesis block, with a number that is not one above it. -/
def misnumbered : Block := block 2 1 5

/-- A child of it. -/
def misnumberedChild : Block := block 3 2 6

/-- The misnumbered block is announced, and rejected when its proof arrives. -/
def rejectedPayload : List (Processed externals.Proof) :=
  [.message (.newPayload (payload misnumbered) 0), .outcome (.proof 2 true)]

/-- The headers of this run. -/
abbrev misnumberedFeed : Feed externals :=
  feedOf [header 1 0 0, misnumbered.toSealedHeader, misnumberedChild.toSealedHeader]

/-- The lookups of this world drop nothing. -/
theorem retains (tree : EngineTree externals) (hash : B256) : tree.Retains hash := fun h => h

/-- **An update to a child of an invalid block**: nothing but the hash of the child
is known, and the answer is `Syncing`. -/
theorem unknown_head_of_invalid_parent :
    ¬∀ trace engine, FedRun misnumberedFeed (launch externals (block 1 0 0)) trace engine →
      ∀ block payload, externals.ensureWellFormedPayload payload = .ok block →
        (externals.invalidHeaderCache.Cached engine.tree.invalidHeaders block.hash ∨
          externals.invalidHeaderCache.Cached engine.tree.invalidHeaders block.parentHash) →
        ¬engine.tree.provider.Contains block.hash →
        ¬engine.tree.provider.Contains block.parentHash →
        engine.tree.Retains block.hash → engine.tree.Retains block.parentHash →
          StaysInvalid engine.tree block := by
  intro hall
  have hprovides : ∀ event ∈ rejectedPayload, misnumberedFeed.Provides event := by decide +kernel
  have hends : (replay ascending rejectedPayload (launch externals (block 1 0 0))).any
      (fun engine => decide ((cache.contents engine.tree.invalidHeaders).get 2
          = some misnumbered.blockWithParent ∧
        ¬engine.tree.provider.Contains 3 ∧ ¬engine.tree.provider.Contains 2 ∧
        (onForkchoiceUpdated ascending engine.tree ⟨3, 0, 0⟩ none 3).1.toOption.map
          TreeOutcome.outcome = some (.valid ⟨.syncing, none⟩))) = true := by
    decide +kernel
  obtain ⟨engine, hreplay, hstate⟩ := (Option.any_eq_true _ _).mp hends
  obtain ⟨hcached, hchild, hparent, hsyncing⟩ := of_decide_eq_true hstate
  have hstays := hall _ engine (.of_replay (fun _ => hprovides) hreplay) misnumberedChild
    (payload misnumberedChild) rfl (.inr ⟨_, hcached⟩) hchild hparent (retains _ _) (retains _ _)
  obtain ⟨outcome, status, message, hanswer, hinvalid, -⟩ :=
    (hstays.head ascending ⟨3, 0, 0⟩ none 3 rfl).invalid
  rw [hanswer] at hsyncing
  cases (Option.some.inj hsyncing).symm.trans hinvalid

/-- A resent payload whose parent is known to be invalid is refused. -/
theorem refused_of_consulted_child :
    ∃ engine : ConsensusEngine externals,
      replay ascending rejectedPayload (launch externals (block 1 0 0)) = some engine ∧
        RefusesBlock engine.tree
          (onNewPayload ascending engine.tree (payload misnumberedChild) (some true)) := by
  have hends : (replay ascending rejectedPayload (launch externals (block 1 0 0))).any
      (fun engine => decide (engine.tree.payloadCheck misnumberedChild = 2 ∧
        (cache.contents engine.tree.invalidHeaders).get 2
          = some misnumbered.blockWithParent)) = true := by
    decide +kernel
  obtain ⟨engine, hreplay, hstate⟩ := (Option.any_eq_true _ _).mp hends
  obtain ⟨hcheck, hcached⟩ := of_decide_eq_true hstate
  have hfound :
      cache.Cached engine.tree.invalidHeaders (engine.tree.payloadCheck misnumberedChild) :=
    ⟨_, hcheck ▸ hcached⟩
  exact ⟨engine, hreplay, (refused_of_consulted engine.tree misnumberedChild).newPayload ascending
    (payload misnumberedChild) (some true) rfl (retains _ _) hfound⟩

end SmallWorld

end ZkRess
