import ZkRess.Engine.EngineCases
import ZkRess.Engine.Feed

/-!
# Small steps of the engine tree

Every message and every download outcome changes the chain state, the canonical
head and the invalid cache through a handful of small steps: a verified block is
added, a rejected block is remembered as invalid or the mark is inherited from
an ancestor, the canonical head advances, old blocks are pruned.  `TreeStep` is
that list, with what the code has checked before each of them.

`Run.takes` is the simulation: whatever an event does to the tree is a sequence
of small steps.  An invariant of chain state, head and invalid cache is proved
for one small step, and holds in every run.

A sequence of steps is labelled with marks, so that results can speak of what
happened earlier in a run: which blocks were verified, and what was pruned.
-/

namespace ZkRess

open Foundation

variable {X : Externals}

/-- What a small step did. -/
inductive Mark
  | verified (block : Block)
  | condemned (hash : B256)
  | advanced
  | pruned (finalizedNumber : ℕ)

/-- The entries of the second cache are those of the first, and possibly one for
`added`. -/
def CacheGrows (tree tree' : EngineTree X) (added : Option B256) : Prop :=
  X.invalidHeaderCache.Lawful → ∀ hash entry,
    (X.invalidHeaderCache.contents tree'.invalidHeaders).get hash = some entry →
      added = some hash ∨
        (X.invalidHeaderCache.contents tree.invalidHeaders).get hash = some entry

/-- Why a block may be remembered as invalid: the error is a validation error,
and it comes from the stateless checks or from the verifier, run on a delivered
proof. -/
def Rejects (feed : Feed X) (provider : ChainState X.Proof) (block : Block) : Prop :=
  ∃ kind validationErr, X.ensureValidationError kind = .ok validationErr ∧
    ((∃ error, EngineTree.validateBlock X block = .error error ∧ kind = .consensus error) ∨
      ∃ parent proof error, proof ∈ feed.proofs block.hash ∧
        provider.sealedHeader block.parentHash = some parent ∧
        X.verify provider block parent proof = .error error ∧
        kind = EngineTree.insertErrorKind error)

/-- **One small step.**  Only chain state, canonical head and invalid cache are
described; the rest of the tree is free. -/
inductive TreeStep (feed : Feed X) (tree tree' : EngineTree X) : Option Mark → Prop
  /-- At most, entries of the cache are lost. -/
  | quiet (provider : tree'.provider = tree.provider)
      (head : tree'.canonicalHead = tree.canonicalHead) (cache : CacheGrows tree tree' none) :
      TreeStep feed tree tree' none
  /-- A rejected block is remembered. -/
  | condemn {block : Block} (fed : block ∈ feed.blocks)
      (fresh : ¬tree.provider.Contains block.hash) (reason : Rejects feed tree.provider block)
      (provider : tree'.provider = tree.provider)
      (head : tree'.canonicalHead = tree.canonicalHead)
      (cache : CacheGrows tree tree' (some block.hash)) :
      TreeStep feed tree tree' (some (.condemned block.hash))
  /-- A block whose ancestor is known to be invalid is remembered. -/
  | inherit {block : Block} {check : B256} (fed : block ∈ feed.blocks)
      (descends : feed.Descends block.hash check)
      (known : X.invalidHeaderCache.Lawful →
        X.invalidHeaderCache.Cached tree.invalidHeaders check)
      (provider : tree'.provider = tree.provider)
      (head : tree'.canonicalHead = tree.canonicalHead)
      (cache : CacheGrows tree tree' (some block.hash)) :
      TreeStep feed tree tree' (some (.condemned block.hash))
  /-- A block the verifier accepts is added. -/
  | verify {block : Block} {parent : SealedHeader} {proof : X.Proof} (fed : block ∈ feed.blocks)
      (proofFed : proof ∈ feed.proofs block.hash) (fresh : ¬tree.provider.Contains block.hash)
      (valid : EngineTree.validateBlock X block = .ok ())
      (connected : tree.provider.sealedHeader block.parentHash = some parent)
      (passed : X.verify tree.provider block parent proof = .ok ())
      (provider : tree'.provider = tree.provider.insertBlock block (some proof))
      (head : tree'.canonicalHead = tree.canonicalHead) (cache : CacheGrows tree tree' none) :
      TreeStep feed tree tree' (some (.verified block))
  /-- The canonical chain is updated. -/
  | advance {target : B256} {update : NewCanonicalChain}
      (found : tree.onNewHead target = some update)
      (provider : tree'.provider = tree.provider.onChainUpdate update.new.headers update.old)
      (head : tree'.canonicalHead = update.tip.numHash) (cache : CacheGrows tree tree' none) :
      TreeStep feed tree tree' (some .advanced)
  /-- Blocks below a canonical one are pruned. -/
  | prune {finalizedHash : B256} {finalized : Block}
      (announced : ∃ state ∈ feed.states, state.finalizedBlockHash = finalizedHash)
      (stored : tree.provider.blocksByHash.get finalizedHash = some finalized)
      (canonical : tree.provider.isHashCanonical finalizedHash)
      (provider : tree'.provider = tree.provider.removeBlocksOnFinalized finalizedHash)
      (head : tree'.canonicalHead = tree.canonicalHead) (cache : CacheGrows tree tree' none) :
      TreeStep feed tree tree' (some (.pruned finalized.number))

/-- A sequence of small steps, with its marks. -/
inductive Steps (feed : Feed X) (tree : EngineTree X) : List Mark → EngineTree X → Prop
  | refl : Steps feed tree [] tree
  | tail {marks tree' tree'' mark} (steps : Steps feed tree marks tree')
      (step : TreeStep feed tree' tree'' mark) : Steps feed tree (marks ++ mark.toList) tree''

namespace Steps

variable {feed : Feed X} {tree tree' tree'' : EngineTree X} {marks marks' : List Mark}

theorem single {mark : Option Mark} (step : TreeStep feed tree tree' mark) :
    Steps feed tree mark.toList tree' :=
  Steps.tail .refl step

theorem trans (h : Steps feed tree marks tree') (h' : Steps feed tree' marks' tree'') :
    Steps feed tree (marks ++ marks') tree'' := by
  induction h' with
  | refl => rwa [List.append_nil]
  | tail _ step ih =>
      rw [← List.append_assoc]
      exact ih.tail step

/-- **The invariant rule.**  What every small step preserves, a sequence of them
preserves. -/
theorem preserves {Inv : EngineTree X → Prop}
    (hstep : ∀ tree tree' mark, TreeStep feed tree tree' mark → Inv tree → Inv tree')
    (h : Steps feed tree marks tree') (hinv : Inv tree) : Inv tree' := by
  induction h with
  | refl => exact hinv
  | tail _ step ih => exact hstep _ _ _ step ih

end Steps

/-- The second tree is reached by small steps, and its buffer holds deliveries
only. -/
structure Takes (feed : Feed X) (tree tree' : EngineTree X) : Prop where
  steps : ∃ marks, Steps feed tree marks tree'
  fed : FedBy feed tree'.blockBuffer

namespace Takes

variable {feed : Feed X} {tree tree' tree'' : EngineTree X}

theorem refl (h : FedBy feed tree.blockBuffer) : Takes feed tree tree := ⟨⟨[], .refl⟩, h⟩

theorem trans (h : Takes feed tree tree') (h' : Takes feed tree' tree'') :
    Takes feed tree tree'' := by
  obtain ⟨marks, hsteps⟩ := h.steps
  obtain ⟨marks', hsteps'⟩ := h'.steps
  exact ⟨⟨marks ++ marks', hsteps.trans hsteps'⟩, h'.fed⟩

theorem of_step {mark : Option Mark} (step : TreeStep feed tree tree' mark)
    (h : FedBy feed tree'.blockBuffer) : Takes feed tree tree' :=
  ⟨⟨mark.toList, .single step⟩, h⟩

/-- Nothing but the buffer and the tracker changed. -/
theorem of_quiet (provider : tree'.provider = tree.provider)
    (head : tree'.canonicalHead = tree.canonicalHead)
    (cache : tree'.invalidHeaders = tree.invalidHeaders) (h : FedBy feed tree'.blockBuffer) :
    Takes feed tree tree' := by
  refine of_step (.quiet provider head fun _ hash entry hget => .inr ?_) h
  rwa [cache] at hget

end Takes

namespace EngineTree

variable {feed : Feed X} {tree tree' : EngineTree X}

theorem Peeks.cacheGrows (h : Peeks tree tree') : CacheGrows tree tree' none :=
  fun hlawful hash entry hget => .inr (h.shrinks hlawful hash entry hget)

theorem Peeks.takes (h : Peeks tree tree') (hfed : FedBy feed tree.blockBuffer) :
    Takes feed tree tree' :=
  .of_step (.quiet h.provider h.canonicalHead h.cacheGrows) (h.blockBuffer ▸ hfed)

/-! ## The methods as small steps -/

theorem Checks.takes {check : B256} {block : Block} {status : Option PayloadStatus}
    (h : Checks tree check block.hash status tree') (hfed : FedBy feed tree.blockBuffer)
    (hblock : block ∈ feed.blocks) (hdescends : feed.Descends block.hash check) :
    Takes feed tree tree' := by
  cases h with
  | clear peeks => exact peeks.takes hfed
  | @invalid tree₁ entry status message peeks found =>
      refine .of_step (.inherit hblock hdescends (fun hlawful => ?_) peeks.provider
        peeks.canonicalHead fun hlawful hash entry' hget => ?_) ?_
      · exact ⟨entry, hlawful.get_sound _ _ _ found⟩
      · rcases hlawful.insertWith_adds _ _ _ _ _ hget with ⟨rfl, rfl⟩ | hold
        · exact .inl rfl
        · exact .inr (peeks.shrinks hlawful hash entry' hold)
      · show FedBy feed tree₁.blockBuffer
        rw [peeks.blockBuffer]
        exact hfed

theorem Fails.takes {block : Block} {error : InsertBlockErrorKind}
    {result : Except InsertBlockFatalError PayloadStatus} (h : Fails tree block error result tree')
    (hfed : FedBy feed tree.blockBuffer) (hblock : block ∈ feed.blocks)
    (hfresh : ¬tree.provider.Contains block.hash)
    (hreason : ∀ validationErr, X.ensureValidationError error = .ok validationErr →
      Rejects feed tree.provider block) : Takes feed tree tree' := by
  cases h with
  | fatal => exact .refl hfed
  | @invalid validationErr tree₁ latestValidHash isValidation peeks =>
      refine .of_step (.condemn hblock hfresh (hreason validationErr isValidation) peeks.provider
        peeks.canonicalHead fun hlawful hash entry hget => ?_) ?_
      · rcases hlawful.insert_adds _ _ _ _ hget with ⟨rfl, rfl⟩ | hold
        · exact .inl rfl
        · exact .inr (peeks.shrinks hlawful hash entry hold)
      · show FedBy feed tree₁.blockBuffer
        rw [peeks.blockBuffer]
        exact hfed

/-- An insertion that succeeds is a small step. -/
theorem Inserts.takes {block : Block} {maybeProof : Option X.Proof} {result : InsertPayloadOk}
    (h : Inserts tree block maybeProof (.ok result) tree') (hfed : FedBy feed tree.blockBuffer)
    (hblock : block ∈ feed.blocks)
    (hproof : ∀ proof, maybeProof = some proof → proof ∈ feed.proofs block.hash) :
    Takes feed tree tree' := by
  cases h with
  | alreadySeen => exact .refl hfed
  | disconnected => exact .of_quiet rfl rfl rfl (hfed.bufferWith hblock hproof)
  | noProof => exact .of_quiet rfl rfl rfl (hfed.insertBlock hblock)
  | verified fresh valid connected proved passed =>
      exact .of_step (.verify hblock (hproof _ proved) fresh valid connected passed rfl rfl
        fun _ _ _ hget => .inr hget) hfed

/-- An insertion that fails leaves the tree alone, and its error is a reason. -/
theorem Inserts.reason {block : Block} {maybeProof : Option X.Proof} {kind : InsertBlockErrorKind}
    (h : Inserts tree block maybeProof (.error kind) tree')
    (hproof : ∀ proof, maybeProof = some proof → proof ∈ feed.proofs block.hash) :
    tree' = tree ∧ ¬tree.provider.Contains block.hash ∧
      ∀ validationErr, X.ensureValidationError kind = .ok validationErr →
        Rejects feed tree.provider block := by
  cases h with
  | malformed fresh failed =>
      exact ⟨rfl, fresh, fun _ hval => ⟨_, _, hval, .inl ⟨_, failed, rfl⟩⟩⟩
  | rejected fresh valid connected proved failed =>
      exact ⟨rfl, fresh, fun _ hval =>
        ⟨_, _, hval, .inr ⟨_, _, _, hproof _ proved, connected, failed, rfl⟩⟩⟩

theorem makeCanonical_takes (hfed : FedBy feed tree.blockBuffer) (target : B256) :
    Takes feed tree (tree.makeCanonical target) := by
  unfold makeCanonical
  cases hupdate : tree.onNewHead target with
  | none => exact .refl hfed
  | some update =>
      exact .of_step (.advance hupdate rfl rfl fun _ _ _ hget => .inr hget) hfed

theorem Connects.takes {child : Block} {proof : X.Proof}
    {result : Except InsertBlockFatalError Unit}
    (h : Connects tree child proof result tree') (hfed : FedBy feed tree.blockBuffer)
    (hchild : child ∈ feed.blocks) (hproof : proof ∈ feed.proofs child.hash) :
    Takes feed tree tree' := by
  have hproof' : ∀ proof', some proof = some proof' → proof' ∈ feed.proofs child.hash := by
    rintro proof' ⟨⟩
    exact hproof
  cases h with
  | inserted inserts => exact inserts.takes hfed hchild hproof'
  | syncTarget inserts =>
      have htakes := inserts.takes hfed hchild hproof'
      exact htakes.trans (makeCanonical_takes htakes.fed child.hash)
  | failed inserts fails
  | failedFatally inserts fails =>
      obtain ⟨rfl, hfresh, hreason⟩ := inserts.reason hproof'
      exact fails.takes hfed hchild hfresh hreason

theorem connectBlocks_takes (blocks : List (Block × X.Proof)) (hfed : FedBy feed tree.blockBuffer)
    (hblocks : ∀ pair ∈ blocks, pair.1 ∈ feed.blocks ∧ pair.2 ∈ feed.proofs pair.1.hash) :
    Takes feed tree (connectBlocks blocks tree).2 := by
  obtain ⟨_, ⟨htakes, -⟩, -⟩ := connectBlocks_preserves
    (fun rest tree' => Takes feed tree tree' ∧
      ∀ pair ∈ rest, pair.1 ∈ feed.blocks ∧ pair.2 ∈ feed.proofs pair.1.hash)
    (fun {child proof rest _ _ _} h hconnects => by
      obtain ⟨htakes, hpairs⟩ := h
      obtain ⟨hchild, hproof⟩ := hpairs (child, proof) List.mem_cons_self
      exact ⟨htakes.trans (hconnects.takes htakes.fed hchild hproof),
        fun pair hpair => hpairs pair (List.mem_cons_of_mem _ hpair)⟩)
    blocks ⟨.refl hfed, hblocks⟩
  exact htakes

theorem tryConnectBufferedBlocks_takes (σ : SetOrder B256) (hfed : FedBy feed tree.blockBuffer)
    (parentHash : B256) : Takes feed tree (tryConnectBufferedBlocks σ tree parentHash).2 := by
  have hremoved := BlockBuffer.removeBlockWithChildren_spec σ parentHash hfed.wellFormed
  have hfed' := hfed.of_sub hremoved.wellFormed hremoved.sub
  have hbuffer : Takes feed tree { tree with
      blockBuffer := (tree.blockBuffer.removeBlockWithChildren σ parentHash).2 } :=
    .of_quiet rfl rfl rfl hfed'
  unfold tryConnectBufferedBlocks
  refine hbuffer.trans (connectBlocks_takes _ hfed' fun pair hpair => ?_)
  obtain ⟨hblock, -, hproof⟩ := hfed.ready_fed (hremoved.ready pair hpair)
  exact ⟨hblock, hproof⟩

theorem Handles.takes {σ : SetOrder B256} {check : B256} {block : Block}
    {maybeProof : Option X.Proof}
    {result : Except InsertBlockFatalError (TreeOutcome PayloadStatus)}
    (h : Handles σ tree check block maybeProof result tree') (hfed : FedBy feed tree.blockBuffer)
    (hblock : block ∈ feed.blocks) (hdescends : feed.Descends block.hash check)
    (hproof : ∀ proof, maybeProof = some proof → proof ∈ feed.proofs block.hash) :
    Takes feed tree tree' := by
  have hconnect : ∀ {tree₁ tree₂ tree₃ result r}, Checks tree check block.hash none tree₁ →
      Inserts tree₁ block maybeProof (.ok result) tree₂ →
      tryConnectBufferedBlocks σ tree₂ block.hash = (r, tree₃) → Takes feed tree tree₃ := by
    intro tree₁ tree₂ tree₃ result r checks inserts connects
    have h₁ := checks.takes hfed hblock hdescends
    have h₂ := inserts.takes h₁.fed hblock hproof
    have h₃ := tryConnectBufferedBlocks_takes σ h₂.fed block.hash
    rw [connects] at h₃
    exact (h₁.trans h₂).trans h₃
  have hfail : ∀ {tree₁ tree₂ tree₃ kind r}, Checks tree check block.hash none tree₁ →
      Inserts tree₁ block maybeProof (.error kind) tree₂ → Fails tree₂ block kind r tree₃ →
      Takes feed tree tree₃ := by
    intro tree₁ tree₂ tree₃ kind r checks inserts fails
    have h₁ := checks.takes hfed hblock hdescends
    obtain ⟨rfl, hfresh, hreason⟩ := inserts.reason hproof
    exact h₁.trans (fails.takes h₁.fed hblock hfresh hreason)
  cases h with
  | invalidAncestor checks => exact checks.takes hfed hblock hdescends
  | connected checks inserts _ connects => exact hconnect checks inserts connects
  | connectFailed checks inserts _ connects => exact hconnect checks inserts connects
  | seen checks inserts
  | disconnected checks inserts
  | noProof checks inserts =>
      have h₁ := checks.takes hfed hblock hdescends
      exact h₁.trans (inserts.takes h₁.fed hblock hproof)
  | failed checks inserts fails => exact hfail checks inserts fails
  | failedFatally checks inserts fails => exact hfail checks inserts fails

theorem onDownloadedBlock_takes (σ : SetOrder B256) (hfed : FedBy feed tree.blockBuffer)
    {block : Block} {proof : X.Proof} (hblock : block ∈ feed.blocks)
    (hproof : proof ∈ feed.proofs block.hash) :
    Takes feed tree (onDownloadedBlock σ tree block proof).2 := by
  refine (onDownloadedBlock_cases σ tree block proof).takes hfed hblock
    (descends_lowestBufferedAncestorOr hfed block.hash) ?_
  rintro proof' ⟨⟩
  exact hproof

theorem onNewPayload_takes (σ : SetOrder B256) (hfed : FedBy feed tree.blockBuffer)
    {payload : ExecutionData} (maybeProof : Option X.Proof)
    (hpayload : ∀ block, X.ensureWellFormedPayload payload = .ok block →
      block ∈ feed.blocks ∧ ∀ proof, maybeProof = some proof → proof ∈ feed.proofs block.hash) :
    Takes feed tree (onNewPayload σ tree payload maybeProof).2 := by
  cases hformed : X.ensureWellFormedPayload payload with
  | error error =>
      obtain ⟨latestValidHash, tree', hpeeks, heq⟩ :=
        onNewPayload_malformed σ tree maybeProof hformed
      rw [heq]
      exact hpeeks.takes hfed
  | ok block =>
      obtain ⟨hblock, hproof⟩ := hpayload block hformed
      exact (onNewPayload_cases σ tree maybeProof hformed).takes hfed hblock
        (descends_payloadCheck hfed hblock) hproof

theorem cleanUp_takes (σ : SetOrder B256) (hfed : FedBy feed tree.blockBuffer)
    {state : ForkchoiceState} (hstate : state ∈ feed.states)
    (hcanonical : state.finalizedBlockHash = 0 ∨
      tree.provider.isHashCanonical state.finalizedBlockHash) :
    Takes feed tree (cleanUp σ tree state.finalizedBlockHash) := by
  have hpruned : Takes feed tree
      { tree with provider := tree.provider.onFinalized state.finalizedBlockHash } := by
    unfold ChainState.onFinalized
    by_cases hzero : state.finalizedBlockHash = 0
    · rw [if_pos hzero]
      exact .refl hfed
    · rw [if_neg hzero]
      cases hstored : tree.provider.blocksByHash.get state.finalizedBlockHash with
      | none =>
          rw [ChainState.removeBlocksOnFinalized_of_none hstored]
          exact .refl hfed
      | some finalized =>
          exact .of_step (.prune ⟨state, hstate, rfl⟩ hstored (hcanonical.resolve_left hzero) rfl
            rfl fun _ _ _ hget => .inr hget) hfed
  unfold cleanUp
  simp only
  split
  · next finalizedNumber _ =>
      have hevicted := BlockBuffer.evictOldBlocks_spec σ hfed.wellFormed finalizedNumber
      exact hpruned.trans (.of_quiet rfl rfl rfl (hfed.of_sub hevicted.1 hevicted.2))
  · exact hpruned

theorem onCanonicalChainUpdate_takes (hfed : FedBy feed tree.blockBuffer) {target : B256}
    {update : NewCanonicalChain} (hupdate : tree.onNewHead target = some update) :
    Takes feed tree (tree.onCanonicalChainUpdate update) :=
  .of_step (.advance hupdate rfl rfl fun _ _ _ hget => .inr hget) hfed

theorem Updates.takes {σ : SetOrder B256} {state : ForkchoiceState}
    {result : Except ProviderError (TreeOutcome OnForkChoiceUpdated)}
    (h : Updates σ tree state result tree') (hfed : FedBy feed tree.blockBuffer)
    (hstate : state ∈ feed.states) : Takes feed tree tree' := by
  cases h with
  | refused peeks => exact peeks.takes hfed
  | atHead peeks => exact peeks.takes hfed
  | inconsistent peeks _ found =>
      have hpeeks := peeks.takes hfed
      exact hpeeks.trans (onCanonicalChainUpdate_takes hpeeks.fed found)
  | applied peeks _ found consistent =>
      have hpeeks := peeks.takes hfed
      have hupdated := onCanonicalChainUpdate_takes hpeeks.fed found
      exact (hpeeks.trans hupdated).trans (cleanUp_takes σ hupdated.fed hstate consistent.finalized)
  | known peeks => exact peeks.takes hfed
  | syncing peeks => exact peeks.takes hfed

end EngineTree

/-! ## Events as small steps -/

namespace ConsensusEngine

variable {feed : Feed X} {engine engine' : ConsensusEngine X}

theorem carryOut_takes {tree : EngineTree X} (hfed : FedBy feed tree.blockBuffer)
    (event : Option TreeEvent) : Takes feed tree (tree.carryOut event) := by
  match event with
  | some (.treeAction (.makeCanonical target)) => exact EngineTree.makeCanonical_takes hfed target
  | some (.download _) => exact .refl hfed
  | none => exact .refl hfed

theorem Receives.takes {σ : SetOrder B256} {payload : ExecutionData} {tx : ℕ}
    (h : Receives σ engine payload tx engine') (hfed : FedBy feed engine.tree.blockBuffer)
    (hprovides : feed.Provides (.message (.newPayload payload tx))) :
    Takes feed engine.tree engine'.tree := by
  have hbuffer : Takes feed engine.tree { engine.tree with
      blockBuffer := (engine.tree.blockBuffer.removeProof payload.blockHash).2 } :=
    .of_quiet rfl rfl rfl (hfed.removeProof payload.blockHash)
  have hhandled := EngineTree.onNewPayload_takes σ hbuffer.fed
    (engine.tree.blockBuffer.removeProof payload.blockHash).1
    fun block hformed => by
      obtain ⟨hblock, hhash⟩ := hprovides block hformed
      refine ⟨hblock, fun proof hproof => ?_⟩
      rw [hhash]
      exact hfed.removeProof_fed hproof
  have hall : Takes feed engine.tree (callNewPayload σ engine.tree payload).2 :=
    hbuffer.trans hhandled
  cases h with
  | parked handled _ _ tree =>
      rw [handled] at hall
      rwa [tree]
  | answered handled tree =>
      rw [handled] at hall
      rw [tree]
      exact hall.trans (carryOut_takes hall.fed _)

theorem Chooses.takes {σ : SetOrder B256} {state : ForkchoiceState}
    {payloadAttrs : Option PayloadAttributes} {tx : ℕ} {version : UInt8}
    (h : Chooses σ engine state payloadAttrs tx version engine')
    (hfed : FedBy feed engine.tree.blockBuffer) (hstate : state ∈ feed.states) :
    Takes feed engine.tree engine'.tree := by
  cases h with
  | @answered result tree' handled tree =>
      have hupdated :=
        (EngineTree.onForkchoiceUpdated_cases σ engine.tree state payloadAttrs version).takes hfed
          hstate
      rw [handled] at hupdated
      have htracked : Takes feed tree' (tree'.track state result) :=
        .of_quiet (by simp) (by simp) (by simp) (by simpa using hupdated.fed)
      rw [tree]
      exact (hupdated.trans htracked).trans (carryOut_takes htracked.fed _)

/-- An unlocked hash may be missing from the child index: its proof has just been
filed. -/
theorem Unlocks.takes {σ : SetOrder B256} {hash : B256} (h : Unlocks σ engine hash engine')
    (hfed : FedExcept feed hash engine.tree.blockBuffer) : Takes feed engine.tree engine'.tree := by
  cases h with
  | locked missing same =>
      rw [same]
      exact .refl (hfed.settle missing)
  | @handled block proof result tree' ready handled tree =>
      have hbuffer : Takes feed engine.tree (takeOut engine.tree hash block) :=
        .of_quiet rfl rfl rfl (hfed.drop ready)
      have hproof := hfed.proofs hash proof ready.2
      rw [← BlockBuffer.hash_of_get ready.1] at hproof
      have hhandled := EngineTree.onDownloadedBlock_takes σ hbuffer.fed
        (hfed.blocks hash block ready.1) hproof
      rw [handled] at hhandled
      rw [tree]
      exact (hbuffer.trans hhandled).trans (carryOut_takes hhandled.fed _)

/-- The buffer after the data of a download outcome are stored. -/
theorem FedBy.store {tree : EngineTree X} (hfed : FedBy feed tree.blockBuffer)
    {data : DownloadData X.Proof} (hprovides : feed.Provides (.outcome data)) :
    FedExcept feed (unlockedHash data) (store tree data).blockBuffer := by
  cases data with
  | finalizedBlock block ancestors => exact hfed.except block.hash
  | fullBlock block => exact (hfed.insertBlock hprovides).except block.hash
  | proof blockHash proof => exact hfed.insertProof hprovides

/-- What a download outcome does to the tree before anything is inserted: a
finalized block becomes the head. -/
def receive (tree : EngineTree X) : DownloadData X.Proof → EngineTree X
  | .finalizedBlock block ancestors => insertFinalized tree block ancestors
  | _ => tree

/-- Storing the data changes no more than that, and the buffer. -/
theorem store_eq_receive (tree : EngineTree X) (data : DownloadData X.Proof) :
    store tree data = { receive tree data with blockBuffer := (store tree data).blockBuffer } := by
  cases data <;> rfl

theorem Delivers.takes {σ : SetOrder B256} {data : DownloadData X.Proof}
    (h : Delivers σ engine data engine') (hfed : FedBy feed engine.tree.blockBuffer)
    (hprovides : feed.Provides (.outcome data)) :
    Takes feed (receive engine.tree data) engine'.tree := by
  cases h with
  | dropped isBlock same =>
      rw [isBlock, same]
      exact .refl hfed
  | stored unlocks =>
      have hunlocked := unlocks.takes (FedBy.store hfed hprovides)
      obtain ⟨marks, hsteps⟩ := hunlocked.steps
      have hquiet : TreeStep feed (receive engine.tree data) (store engine.tree data) none := by
        rw [store_eq_receive]
        exact .quiet rfl rfl fun _ _ _ hget => .inr hget
      exact ⟨⟨marks, (Steps.single hquiet).trans hsteps⟩, hunlocked.fed⟩

/-- What an event does to the tree at first: a finalized block becomes the head. -/
def arrive (tree : EngineTree X) : Processed X.Proof → EngineTree X
  | .outcome data => receive tree data
  | _ => tree

/-- **Every event is a sequence of small steps**, after the arrival of a finalized
block. -/
theorem Step.takes {event : Processed X.Proof} (step : Step engine event engine')
    (hfed : FedBy feed engine.tree.blockBuffer) (hprovides : feed.Provides event) :
    Takes feed (arrive engine.tree event) engine'.tree := by
  cases step with
  | message σ message =>
      cases message with
      | newPayload payload tx =>
          exact (onEngineMessage_newPayload σ engine payload tx).takes hfed hprovides
      | forkchoiceUpdated state payloadAttrs tx version =>
          exact (onEngineMessage_forkchoiceUpdated σ engine state payloadAttrs tx version).takes
            hfed
            hprovides
  | outcome σ data handled => exact (onDownloadOutcome_cases handled).takes hfed hprovides
  | timeout => exact .refl hfed

/-! ## Runs as small steps -/

/-- **The invariant rule for events.**  An invariant of trees that every small
step preserves, and that a finalized download preserves, is preserved by every
event. -/
theorem Step.preserves {Inv : EngineTree X → Prop} {event : Processed X.Proof}
    (step : Step engine event engine') (hprovides : feed.Provides event)
    (hstep : ∀ tree tree' mark, TreeStep feed tree tree' mark → Inv tree → Inv tree')
    (hfinalized : ∀ block ancestors, event = .outcome (.finalizedBlock block ancestors) →
      Inv engine.tree → Inv (insertFinalized engine.tree block ancestors))
    (hfed : FedBy feed engine.tree.blockBuffer) (hinv : Inv engine.tree) :
    Inv engine'.tree ∧ FedBy feed engine'.tree.blockBuffer := by
  have htakes := step.takes hfed hprovides
  obtain ⟨marks, hsteps⟩ := htakes.steps
  refine ⟨hsteps.preserves hstep ?_, htakes.fed⟩
  match event, hfinalized with
  | .outcome (.finalizedBlock block ancestors), hfinalized =>
      exact hfinalized block ancestors rfl hinv
  | .outcome (.fullBlock _), _ => exact hinv
  | .outcome (.proof _ _), _ => exact hinv
  | .message _, _ => exact hinv
  | .timeout _, _ => exact hinv

/-- **The invariant rule for runs.**  An invariant of trees that every small step
preserves, and that a finalized download preserves under the condition of the
run, holds in every state of the run. -/
theorem Run.preserves {meets : ConsensusEngine X → Processed X.Proof → Prop}
    {Inv : EngineTree X → Prop}
    (hmeets : ∀ engine event, meets engine event → feed.Provides event)
    (hstep : ∀ tree tree' mark, TreeStep feed tree tree' mark → Inv tree → Inv tree')
    (hfinalized : ∀ engine block ancestors,
      meets engine (.outcome (.finalizedBlock block ancestors)) → Inv engine.tree →
        Inv (insertFinalized engine.tree block ancestors))
    {start engine : ConsensusEngine X} {trace : List (Processed X.Proof)}
    (run : Run meets start trace engine) (hfed : FedBy feed start.tree.blockBuffer)
    (hinv : Inv start.tree) : Inv engine.tree ∧ FedBy feed engine.tree.blockBuffer := by
  induction run with
  | start => exact ⟨hinv, hfed⟩
  | polled _ _ ih => exact ih
  | @step _ engine _ _ _ met step ih =>
      refine step.preserves (hmeets _ _ met) hstep (fun block ancestors heq hinv => ?_) ih.2 ih.1
      subst heq
      exact hfinalized engine block ancestors met hinv

/-- Small steps and finalized downloads, with the marks of the small steps. -/
inductive History (feed : Feed X) (tree : EngineTree X) : List Mark → EngineTree X → Prop
  | start : History feed tree [] tree
  | step {marks tree' tree'' mark} (history : History feed tree marks tree')
      (step : TreeStep feed tree' tree'' mark) : History feed tree (marks ++ mark.toList) tree''
  | finalized {marks tree'} (history : History feed tree marks tree') (block : Block)
      (ancestors : List SealedHeader) (fed : (block, ancestors) ∈ feed.finalized) :
      History feed tree marks (insertFinalized tree' block ancestors)

theorem History.steps {tree tree' tree'' : EngineTree X} {marks marks' : List Mark}
    (history : History feed tree marks tree') (steps : Steps feed tree' marks' tree'') :
    History feed tree (marks ++ marks') tree'' := by
  induction steps with
  | refl => rwa [List.append_nil]
  | tail _ step ih =>
      rw [← List.append_assoc]
      exact ih.step step

theorem History.arrive {tree tree' : EngineTree X} {marks : List Mark}
    (history : History feed tree marks tree') {event : Processed X.Proof}
    (hprovides : feed.Provides event) : History feed tree marks (arrive tree' event) := by
  match event, hprovides with
  | .outcome (.finalizedBlock block ancestors), hprovides =>
      exact history.finalized block ancestors hprovides
  | .outcome (.fullBlock _), _ => exact history
  | .outcome (.proof _ _), _ => exact history
  | .message _, _ => exact history
  | .timeout _, _ => exact history

/-- **Every run has a history.** -/
theorem Run.history {meets : ConsensusEngine X → Processed X.Proof → Prop}
    (hmeets : ∀ engine event, meets engine event → feed.Provides event)
    {start engine : ConsensusEngine X} {trace : List (Processed X.Proof)}
    (run : Run meets start trace engine) (hfed : FedBy feed start.tree.blockBuffer) :
    (∃ marks, History feed start.tree marks engine.tree) ∧ FedBy feed engine.tree.blockBuffer := by
  induction run with
  | start => exact ⟨⟨[], .start⟩, hfed⟩
  | polled _ _ ih => exact ih
  | step _ met step ih =>
      obtain ⟨⟨marks, history⟩, hbuffer⟩ := ih
      have htakes := step.takes hbuffer (hmeets _ _ met)
      obtain ⟨marks', hsteps⟩ := htakes.steps
      exact ⟨⟨marks ++ marks', (history.arrive (hmeets _ _ met)).steps hsteps⟩, htakes.fed⟩

end ConsensusEngine

end ZkRess
