import ZkRess.Properties.Blame
import ZkRess.Properties.ExchangedProofs
import ZkRess.Verifier.FullNode

/-!
# The verdicts of a full node

A stateless node is to judge blocks as a full node does that executes the chain from genesis.
It can, as far as the proofs let it: if no delivered proof hides what its block reads or
changes (`FullNode.Shown`), then every block it stores is one that the full node has a state
after, with the root of the header, and every hash it remembers as invalid, or answers
`Invalid` for, belongs to no valid block.

One block is judged in `imports_of_verify` and `not_imports_of_verify`: an accepted block is
imported by the full node, and a block that is blamed is not.  Where a proof has too little,
the verifier fails without blaming the block.  The rest is an induction over the small steps
of a run, in which the state of the parent is the one the full node has after it.
-/

namespace ZkRess

open Foundation ConsensusEngine VerifierExternals

/-- An error for which the block is to blame. -/
def VerifierError.Blames : VerifierError → Prop
  | .consensus _ => True
  | .execution (.validation _) => True
  | .execution (.internal _) => False
  | .provider _ => False
  | .other _ => False

/-- **Blame**: only errors for which the block is to blame are validation errors. -/
def Externals.BlamesBlocksOnly (engine : Externals) : Prop :=
  ∀ error validationErr, engine.ensureValidationError (EngineTree.insertErrorKind error)
    = .ok validationErr → error.Blames

namespace FullNode

variable {X : VerifierExternals} {node : FullNode X} {P : Type}

/-! ## One block -/

/-- **Shown**: the proof comes with genuine code, and hides nothing of the state that the
execution of the block reads, nor what its update changes. -/
structure Shown (node : FullNode X) (S : CompleteState) (block : Block) (parent : SealedHeader)
    (proof : ExecutionStateWitness) : Prop where
  codes : ∀ bytes ∈ proof.bytecodes,
    node.codes (X.hashSlow (X.newRaw bytes)) = some (X.newRaw bytes)
  reads : ∀ trie, X.revealWitness X.new parent.stateRoot (X.stateWitness proof.state) = .ok trie →
    ∀ query ∈ (X.executeBlock block).asked (node.answer S block.parentNumHash),
      X.NothingHidden trie S query
  writes : ∀ trie, X.revealWitness X.new parent.stateRoot (X.stateWitness proof.state) = .ok trie →
    ∀ output, node.execute S block = .ok output → X.LosesNothing trie S (X.fromBundleState output)

/-- A database that looks up ancestors answers as the full node's. -/
theorem answer_of_looksUp {provider : ChainState P} {parent : BlockNumHash}
    (hright : LooksUpFrom node.preimage provider parent) {S : CompleteState}
    {query : DatabaseQuery} {a : query.Answer X.Bytecode}
    (hok : S.answer X.toEvmExternals node.codes provider parent query = .ok a) :
    node.answer S parent query = .ok a := by
  cases query with
  | basic address => exact hok
  | storage address slot => exact hok
  | codeByHash codeHash => exact hok
  | blockHash number =>
      simp only [CompleteState.answer] at hok
      split at hok
      · next hfound =>
          cases hok
          simp only [answer, blockHash_of_reaches (hright number _ hfound)]
      · cases hok

section OneBlock

variable {triePreimage : TrieExternals.TriePreimage} {S : CompleteState} {block : Block}
  {parent : SealedHeader} {proof : ExecutionStateWitness} {provider : ChainState P}
  {trie : X.StateTrie}

/-- **An execution with a proof that shows enough is the full node's**, if all its queries are
answered. -/
theorem Shown.run (hshown : node.Shown S block parent proof) (hlawful : X.Lawful)
    (hright : LooksUpFrom node.preimage provider block.parentNumHash)
    (hreveals : X.Reveals trie S)
    (htrie : X.revealWitness X.new parent.stateRoot (X.stateWitness proof.state) = .ok trie)
    {result : Except BlockExecutionError X.BlockExecutionOutput}
    (hrun : (X.executeBlock block).run (WitnessDatabase.answer (X := X.toEvmExternals)
      ⟨provider, block.parentNumHash, trie, X.hashBytecodes proof.bytecodes⟩) = .ok result) :
    node.execute S block = result := by
  refine executeWith_of_run (Query.run_eq_of_answers (fun query hasked a ha => ?_) hrun)
  have hshows : X.Reveals
      (⟨provider, block.parentNumHash, trie, X.hashBytecodes proof.bytecodes⟩ :
        WitnessDatabase X.toEvmExternals P).trie S := hreveals
  exact answer_of_looksUp hright
    (answer_of_nothingHidden hlawful hshows rfl hshown.codes (hshown.reads trie htrie query hasked)
      ha)

/-- An execution comes to its result with all queries answered, or it fails internally. -/
theorem execute_cases (provider : ChainState P) (parent : BlockNumHash) (trie : X.StateTrie)
    (bytecodes : FiniteMap B256 X.Bytecode) (block : Block) :
    (X.executeBlock block).run
        (WitnessDatabase.answer (X := X.toEvmExternals) ⟨provider, parent, trie, bytecodes⟩)
      = .ok (X.execute provider parent trie bytecodes block) ∨
    ∃ error, X.execute provider parent trie bytecodes block = .error (.internal error) := by
  unfold VerifierExternals.execute VerifierExternals.executeWith
  cases (X.executeBlock block).run
      (WitnessDatabase.answer (X := X.toEvmExternals) ⟨provider, parent, trie, bytecodes⟩) with
  | error error => exact .inr ⟨error, rfl⟩
  | ok result => exact .inl rfl

/-- An output of the execution is the full node's. -/
theorem Shown.execute (hshown : node.Shown S block parent proof) (hlawful : X.Lawful)
    (hright : LooksUpFrom node.preimage provider block.parentNumHash)
    (hreveals : X.Reveals trie S)
    (htrie : X.revealWitness X.new parent.stateRoot (X.stateWitness proof.state) = .ok trie)
    {output : X.BlockExecutionOutput}
    (hexecute : X.execute provider block.parentNumHash trie (X.hashBytecodes proof.bytecodes) block
      = .ok output) : node.execute S block = .ok output := by
  rcases execute_cases provider block.parentNumHash trie (X.hashBytecodes proof.bytecodes) block
    with hrun | ⟨error, hfailed⟩
  · rw [hexecute] at hrun
    exact hshown.run hlawful hright hreveals htrie hrun
  · cases hexecute.symm.trans hfailed

variable {parentBlock : Block} {schedule : List X.StorageResult → List X.StorageResult}

/-- The computed root is that of the state after the block. -/
theorem Shown.stateRoot (hshown : node.Shown S block parent proof) (hlawful : X.Lawful)
    (hlaunched : node.WellLaunched triePreimage) (hafter : node.StateAfter parentBlock S)
    (hschedule : ∀ results, (schedule results).Perm results) (hreveals : X.Reveals trie S)
    (htrie : X.revealWitness X.new parent.stateRoot (X.stateWitness proof.state) = .ok trie)
    {output : X.BlockExecutionOutput} (hexecute : node.execute S block = .ok output) {root : B256}
    (hroot : X.calculateStateRoot schedule trie (X.fromBundleState output) = .ok root) :
    root = (S.apply X.keccakEmpty (X.fromBundleState output)).stateRoot X.toTrieExternals := by
  have hsame := TrieExternals.computedState_eq_apply_iff.mpr
    (hshown.writes trie htrie output hexecute)
  have hconforms := hlaunched.executed hafter hexecute
  rw [← hsame] at hconforms ⊢
  exact TrieExternals.calculateStateRoot_spec hlawful hconforms hreveals hschedule hroot

/-- **An accepted block is imported by the full node.** -/
theorem imports_of_verify (hlawful : X.Lawful) (hlinked : X.RevealsLinked triePreimage)
    (hlaunched : node.WellLaunched triePreimage)
    (hschedule : ∀ results, (schedule results).Perm results)
    (hafter : node.StateAfter parentBlock S)
    (hshown : node.Shown S block parentBlock.toSealedHeader proof)
    (hright : LooksUpFrom node.preimage provider block.parentNumHash)
    (hok : X.verify schedule provider block parentBlock.toSealedHeader proof = .ok ()) :
    ∃ S', node.Imports parentBlock.toSealedHeader S block S' := by
  have hcases := verify_cases X schedule provider block parentBlock.toSealedHeader proof
  rw [hok] at hcases
  cases hcases with
  | @accepted trie output header body linked revealed executed checked computed =>
      have hreveals : X.Reveals trie S :=
        hlinked _ _ _ revealed S (hafter.stateRoot hlaunched) (hafter.conforms hlaunched)
      have hexecute := hshown.execute hlawful hright hreveals revealed executed
      refine ⟨S.apply X.keccakEmpty (X.fromBundleState output), header, body, linked,
        ⟨output, hexecute, checked, rfl⟩, ?_⟩
      exact (hshown.stateRoot hlawful hlaunched hafter hschedule hreveals revealed hexecute
        computed).symm

/-- **A blamed block is not imported by the full node.** -/
theorem not_imports_of_verify (hlawful : X.Lawful) (hlinked : X.RevealsLinked triePreimage)
    (hlaunched : node.WellLaunched triePreimage)
    (hschedule : ∀ results, (schedule results).Perm results)
    (hafter : node.StateAfter parentBlock S)
    (hshown : node.Shown S block parentBlock.toSealedHeader proof)
    (hright : LooksUpFrom node.preimage provider block.parentNumHash) {error : VerifierError}
    (herror : X.verify schedule provider block parentBlock.toSealedHeader proof = .error error)
    (hblames : error.Blames) (S' : CompleteState) :
    ¬node.Imports parentBlock.toSealedHeader S block S' := by
  intro himports
  obtain ⟨output, hexecute, hchecked, rfl⟩ := himports.executes
  have hreveals : ∀ trie, X.revealWitness X.new parentBlock.stateRoot
      (X.stateWitness proof.state) = .ok trie → X.Reveals trie S := fun trie htrie =>
    hlinked _ _ _ htrie S (hafter.stateRoot hlaunched) (hafter.conforms hlaunched)
  have hcases := verify_cases X schedule provider block parentBlock.toSealedHeader proof
  rw [herror] at hcases
  cases hcases with
  | badHeader failed => cases himports.header.symm.trans failed
  | badBody failed => cases himports.body.symm.trans failed
  | badParent failed => cases himports.linked.symm.trans failed
  | badWitness => exact hblames
  | @badExecution trie error revealed failed =>
      rcases execute_cases provider block.parentNumHash trie (X.hashBytecodes proof.bytecodes)
        block with hrun | ⟨internal, hinternal⟩
      · have hfailed := hshown.run hlawful hright (hreveals trie revealed) revealed hrun
        cases hexecute.symm.trans (hfailed.trans failed)
      · cases failed.symm.trans hinternal
        exact hblames
  | badOutput revealed executed failed =>
      have hsame := hshown.execute hlawful hright (hreveals _ revealed) revealed executed
      cases hexecute.symm.trans hsame
      cases hchecked.symm.trans failed
  | badRoot revealed executed computed differs =>
      have hsame := hshown.execute hlawful hright (hreveals _ revealed) revealed executed
      cases hexecute.symm.trans hsame
      have hroot := hshown.stateRoot hlawful hlaunched hafter hschedule (hreveals _ revealed)
        revealed hexecute computed
      exact differs (hroot.trans himports.root)

end OneBlock

end FullNode

/-! ## All blocks of a run -/

section Runs

variable {X : VerifierExternals} {engine : Externals}
  {schedule : List X.StorageResult → List X.StorageResult}
  {feed : Feed (engine.withExecutionWitnesses X schedule)} {node : FullNode X}
  {triePreimage : TrieExternals.TriePreimage}

/-- **Beside the engine**: the full node hashes as in the run, and makes the same checks. -/
structure FullNode.Beside (node : FullNode X)
    (feed : Feed (engine.withExecutionWitnesses X schedule)) : Prop where
  preimage : node.preimage = feed.preimage
  validateHeader : engine.validateHeader = X.validateHeader
  validateBlockPreExecution : engine.validateBlockPreExecution = X.validateBlockPreExecution

/-- **Fair deliveries**: the body delivered with a header is the valid one if there is one, the
finalized downloads are valid, and the proofs show what their blocks need. -/
structure FullNode.FairlyFed (node : FullNode X)
    (feed : Feed (engine.withExecutionWitnesses X schedule)) : Prop where
  bodies : ∀ block ∈ feed.blocks, ∀ block', node.Valid block' →
    block'.toSealedHeader = block.toSealedHeader → block' = block
  finalized : ∀ pair ∈ feed.finalized, node.Valid pair.1
  proofs : ∀ block ∈ feed.blocks, ∀ (proof : ExecutionStateWitness),
    proof ∈ feed.proofs block.hash → ∀ parent S, node.StateAfter parent S → parent.hash = block.parentHash →
      node.Shown S block parent.toSealedHeader proof

/-- **What the node relies on**: the tries, the order in which storage tries arrive, the number
check, and which errors are fatal. -/
structure FullNode.Relies (X : VerifierExternals) (engine : Externals)
    (schedule : List X.StorageResult → List X.StorageResult)
    (triePreimage : TrieExternals.TriePreimage) : Prop where
  lawful : X.Lawful
  linked : X.RevealsLinked triePreimage
  scheduled : ∀ results, (schedule results).Perm results
  numbers : ∀ header parent, X.validateHeaderAgainstParent header parent = .ok () →
    header.number = parent.number + 1
  cache : engine.invalidHeaderCache.Lawful
  blames : engine.BlamesBlocksOnly

namespace FullNode

theorem WellLaunched.isGenesis (hlaunched : node.WellLaunched triePreimage)
    (hbeside : node.Beside feed) : feed.IsGenesis node.genesis where
  conforms := hbeside.preimage ▸ hlaunched.genesisConforms
  number := hlaunched.genesisNumber
  noParent := hbeside.preimage ▸ hlaunched.genesisOrphan

theorem Valid.validateBlock {block : Block} (h : node.Valid block)
    (hlaunched : node.WellLaunched triePreimage) (hbeside : node.Beside feed) :
    EngineTree.validateBlock (engine.withExecutionWitnesses X schedule) block = .ok () := by
  obtain ⟨hheader, hbody⟩ := h.checked hlaunched
  rw [← hbeside.validateHeader] at hheader
  rw [← hbeside.validateBlockPreExecution] at hbody
  unfold EngineTree.validateBlock Externals.withExecutionWitnesses
  simp only [hheader, hbody]

/-- **Judged as by the full node**: what is stored is valid, and what is remembered as invalid is
the hash of no valid block. -/
private structure Judged (node : FullNode X)
    (feed : Feed (engine.withExecutionWitnesses X schedule))
    (tree : EngineTree (engine.withExecutionWitnesses X schedule)) : Prop where
  canonical : Canonical feed node.genesis tree
  stored : ∀ hash block, tree.provider.blocksByHash.get hash = some block → node.Valid block
  known : ∀ hash, engine.invalidHeaderCache.Cached tree.invalidHeaders hash →
    feed.preimage hash ≠ none
  cached : ∀ hash, engine.invalidHeaderCache.Cached tree.invalidHeaders hash →
    ∀ block, node.Valid block → block.hash ≠ hash

namespace Judged

variable {tree tree' : EngineTree (engine.withExecutionWitnesses X schedule)}

/-- Block hashes are looked up right below a block that is one above its stored parent. -/
private theorem looksUpFrom (h : Judged node feed tree) (hlaunched : node.WellLaunched triePreimage)
    (hbeside : node.Beside feed) {block : Block} {parent : SealedHeader}
    (hstored : tree.provider.sealedHeader block.parentHash = some parent)
    (hnumber : block.number = parent.number + 1) :
    LooksUpFrom node.preimage tree.provider block.parentNumHash := by
  have hposition : block.parentNumHash = parent.numHash := by
    show (⟨block.number - 1, block.parentHash⟩ : BlockNumHash) = ⟨parent.number, parent.hash⟩
    rw [hnumber, ChainState.hash_of_sealedHeader hstored]
    rfl
  rw [hposition, hbeside.preimage]
  exact h.canonical.looksUpAncestors (hlaunched.isGenesis hbeside) _ _ hstored

/-- **An accepted block is valid.** -/
private theorem accepts (h : Judged node feed tree)
    (hrelies : Relies X engine schedule triePreimage)
    (hlaunched : node.WellLaunched triePreimage) (hbeside : node.Beside feed)
    (hfair : node.FairlyFed feed) {block : Block} {parent : SealedHeader}
    {proof : ExecutionStateWitness} (fed : block ∈ feed.blocks)
    (proofFed : proof ∈ feed.proofs block.hash)
    (connected : tree.provider.sealedHeader block.parentHash = some parent)
    (passed : X.verify schedule tree.provider block parent proof = .ok ()) : node.Valid block := by
  have hright := h.looksUpFrom hlaunched hbeside connected
    (hrelies.numbers _ _ (verify_ok passed).1)
  obtain ⟨parentBlock, hget, rfl⟩ := ChainState.sealedHeader_eq_some.mp connected
  obtain ⟨S, hafter⟩ := h.stored _ _ hget
  have hchild := ChainState.hash_of_get hget
  obtain ⟨S', himports⟩ := imports_of_verify hrelies.lawful hrelies.linked hlaunched
    hrelies.scheduled hafter (hfair.proofs block fed proof proofFed parentBlock S hafter hchild)
    hright passed
  have hconforms : block.toSealedHeader.Conforms node.preimage :=
    hbeside.preimage ▸ feed.blocks_conform block fed
  exact ⟨S', .imported hafter hchild.symm hconforms himports⟩

/-- **A rejected block has the hash of no valid one.** -/
private theorem rejects (h : Judged node feed tree)
    (hrelies : Relies X engine schedule triePreimage)
    (hlaunched : node.WellLaunched triePreimage) (hbeside : node.Beside feed)
    (hfair : node.FairlyFed feed) {block : Block} (fed : block ∈ feed.blocks)
    (reason : Rejects feed tree.provider block) {valid : Block} (hvalid : node.Valid valid) :
    valid.hash ≠ block.hash := by
  intro hhash
  -- the valid block is the delivered one
  have hsame : valid = block := by
    have hconf := hvalid.conforms hlaunched
    have hconf' := feed.blocks_conform block fed
    rw [SealedHeader.Conforms, hbeside.preimage, hhash] at hconf
    exact hfair.bodies block fed valid hvalid (Option.some.inj (hconf.symm.trans hconf'))
  subst hsame
  obtain ⟨kind, validationErr, hkind, hcause⟩ := reason
  rcases hcause with ⟨error, hfailed, -⟩ | ⟨parent, proof, error, proofFed, connected, hfailed, rfl⟩
  · -- the stateless checks are the full node's
    cases (hvalid.validateBlock hlaunched hbeside).symm.trans hfailed
  · have hparent : node.preimage valid.parentHash = some parent :=
      hbeside.preimage ▸ h.canonical.grounded.preimage_of_sealedHeader connected
    obtain ⟨parentBlock, S, S', rfl, hchild, hafter, himports⟩ :=
      hvalid.imported hlaunched hparent
    have hright := h.looksUpFrom hlaunched hbeside connected (hrelies.numbers _ _ himports.linked)
    exact not_imports_of_verify hrelies.lawful hrelies.linked hlaunched hrelies.scheduled hafter
      (hfair.proofs valid fed proof proofFed parentBlock S hafter hchild.symm) hright hfailed
      (hrelies.blames error validationErr hkind) S' himports

/-- What descends from the hash of no valid block is itself none. -/
private theorem descendants (h : Judged node feed tree)
    (hlaunched : node.WellLaunched triePreimage) (hbeside : node.Beside feed) {hash check : B256}
    (hdescends : feed.Descends hash check)
    (hcached : engine.invalidHeaderCache.Cached tree.invalidHeaders check) {valid : Block}
    (hvalid : node.Valid valid) : valid.hash ≠ hash := by
  rintro rfl
  obtain ⟨headers, hpath⟩ := hdescends
  have hknown := h.known check hcached
  rw [← hbeside.preimage] at hpath hknown
  obtain ⟨ancestor, hancestor, hhash⟩ := hvalid.of_path hlaunched hknown hpath
  exact h.cached check hcached ancestor hancestor hhash

/-- A cache that grows by at most the hash of no valid block. -/
private theorem grow (h : Judged node feed tree) (hcache : engine.invalidHeaderCache.Lawful)
    {added : Option B256} (hgrows : CacheGrows tree tree' added)
    (hadded : ∀ hash, added = some hash →
      feed.preimage hash ≠ none ∧ ∀ block, node.Valid block → block.hash ≠ hash) (hash : B256)
    (hcached : engine.invalidHeaderCache.Cached tree'.invalidHeaders hash) :
    feed.preimage hash ≠ none ∧ ∀ block, node.Valid block → block.hash ≠ hash := by
  obtain ⟨entry, hget⟩ := hcached
  rcases hgrows hcache hash entry hget with hnew | hold
  · exact hadded hash hnew
  · exact ⟨h.known hash ⟨entry, hold⟩, h.cached hash ⟨entry, hold⟩⟩

/-- **Every small step judges as the full node.** -/
private theorem step (h : Judged node feed tree) (hrelies : Relies X engine schedule triePreimage)
    (hlaunched : node.WellLaunched triePreimage) (hbeside : node.Beside feed)
    (hfair : node.FairlyFed feed) {mark : Option Mark} (step : TreeStep feed tree tree' mark) :
    Judged node feed tree' := by
  have hcanonical := h.canonical.step (hlaunched.isGenesis hbeside)
    (Externals.verifiesNumber_withExecutionWitnesses hrelies.numbers) step
  -- blocks that stay stored, and a cache that does not grow
  have hkept : (∀ hash block, tree'.provider.blocksByHash.get hash = some block →
      tree.provider.blocksByHash.get hash = some block) → ∀ {added}, CacheGrows tree tree' added →
      (∀ hash, added = some hash →
        feed.preimage hash ≠ none ∧ ∀ block, node.Valid block → block.hash ≠ hash) →
      Judged node feed tree' := fun hblocks _ hgrows hadded =>
    ⟨hcanonical, fun hash block hget => h.stored hash block (hblocks hash block hget),
      fun hash hcached => (h.grow hrelies.cache hgrows hadded hash hcached).1,
      fun hash hcached => (h.grow hrelies.cache hgrows hadded hash hcached).2⟩
  have hnone : ∀ hash, (none : Option B256) = some hash →
      feed.preimage hash ≠ none ∧ ∀ block, node.Valid block → block.hash ≠ hash :=
    fun _ heq => by cases heq
  have hfed : ∀ block ∈ feed.blocks, feed.preimage block.hash ≠ none := fun block hblock => by
    rw [feed.blocks_conform block hblock]
    exact Option.some_ne_none _
  cases step with
  | quiet provider _ cache => exact hkept (fun _ _ hget => provider ▸ hget) cache hnone
  | @condemn block fed _ reason provider _ cache =>
      refine hkept (fun _ _ hget => provider ▸ hget) cache ?_
      rintro _ ⟨⟩
      exact ⟨hfed block fed, fun valid hvalid =>
        h.rejects hrelies hlaunched hbeside hfair fed reason hvalid⟩
  | @inherit block check fed descends known provider _ cache =>
      refine hkept (fun _ _ hget => provider ▸ hget) cache ?_
      rintro _ ⟨⟩
      exact ⟨hfed block fed, fun valid hvalid =>
        h.descendants hlaunched hbeside descends (known hrelies.cache) hvalid⟩
  | @verify block parent proof fed proofFed _ _ connected passed provider _ cache =>
      have hvalid := h.accepts hrelies hlaunched hbeside hfair fed proofFed connected passed
      refine ⟨hcanonical, fun hash stored hget => ?_,
        fun hash hcached => (h.grow hrelies.cache cache hnone hash hcached).1,
        fun hash hcached => (h.grow hrelies.cache cache hnone hash hcached).2⟩
      rw [provider, ChainState.insertBlock_get] at hget
      split at hget
      · cases hget
        exact hvalid
      · exact h.stored hash stored hget
  | advance _ provider _ cache =>
      refine hkept (fun hash block hget => ?_) cache hnone
      rwa [provider, (ChainState.onChainUpdate_sameBlocks _ _ _).blocksByHash] at hget
  | prune _ stored _ provider _ cache =>
      refine hkept (fun hash block hget => ?_) cache hnone
      rw [provider] at hget
      exact ((ChainState.removeBlocksOnFinalized_get h.canonical.grounded.indexed stored).mp
        hget).1

/-- A valid finalized block comes in. -/
private theorem insertFinalized (h : Judged node feed tree) (hlinked : feed.Linked)
    (hfair : node.FairlyFed feed) {block : Block} {ancestors : List SealedHeader}
    (fed : (block, ancestors) ∈ feed.finalized) (horder : InOrder feed tree block ancestors) :
    Judged node feed (ConsensusEngine.insertFinalized tree block ancestors) where
  canonical := h.canonical.insertFinalized hlinked fed horder
  stored hash stored hget := by
    rw [insertFinalized_get] at hget
    split at hget
    · cases hget
      exact hfair.finalized _ fed
    · exact h.stored hash stored hget
  known := h.known
  cached := h.cached

private theorem launch (hlaunched : node.WellLaunched triePreimage) (hbeside : node.Beside feed)
    (hcache : engine.invalidHeaderCache.Lawful) :
    Judged node feed (ConsensusEngine.launch _ node.genesis).tree := by
  have hempty : ∀ hash, ¬engine.invalidHeaderCache.Cached
      (ConsensusEngine.launch (engine.withExecutionWitnesses X schedule)
        node.genesis).tree.invalidHeaders hash := by
    rintro hash ⟨entry, hget⟩
    cases (hcache.new_empty hash).symm.trans hget
  refine ⟨.launch (hlaunched.isGenesis hbeside), fun hash block hget => ?_,
    fun hash hcached => absurd hcached (hempty hash),
    fun hash hcached => absurd hcached (hempty hash)⟩
  rw [launch_get] at hget
  split at hget
  · cases hget
    exact ⟨_, .genesis⟩
  · cases hget

/-- **Every ordered run judges as the full node.** -/
private theorem of_run (hrelies : Relies X engine schedule triePreimage)
    (hlaunched : node.WellLaunched triePreimage) (hbeside : node.Beside feed)
    (hfair : node.FairlyFed feed) (hlinked : feed.Linked)
    {trace : List (Processed ExecutionStateWitness)}
    {engine' : ConsensusEngine (engine.withExecutionWitnesses X schedule)}
    (run : OrderedRun feed (ConsensusEngine.launch _ node.genesis) trace engine') :
    Judged node feed engine'.tree ∧ FedBy feed engine'.tree.blockBuffer :=
  @Run.preserves _ feed _ (Judged node feed) (fun _ _ met => met.1)
    (fun _ _ _ step h => h.step hrelies hlaunched hbeside hfair step)
    (fun _ _ _ met h => h.insertFinalized hlinked hfair met.1 met.2) _ _ _ run
    (.new feed) (.launch hlaunched hbeside hrelies.cache)

/-- Grounds for calling a hash invalid: no valid block has it. -/
private theorem grounds (h : Judged node feed tree)
    (hrelies : Relies X engine schedule triePreimage)
    (hlaunched : node.WellLaunched triePreimage) (hbeside : node.Beside feed)
    (hfair : node.FairlyFed feed) {hash : B256} (hgrounds : Grounds feed tree hash)
    {valid : Block} (hvalid : node.Valid valid) : valid.hash ≠ hash := by
  cases hgrounds with
  | remembered descends cached => exact h.descendants hlaunched hbeside descends cached hvalid
  | rejected fed hash_eq _ reason =>
      subst hash_eq
      exact h.rejects hrelies hlaunched hbeside hfair fed reason hvalid

/-- The arrival of a download is judged as by the full node. -/
private theorem arrive (h : Judged node feed tree) (hlinked : feed.Linked)
    (hfair : node.FairlyFed feed) {engine' : ConsensusEngine _} (htree : engine'.tree = tree)
    {event : Processed ExecutionStateWitness}
    (hmet : feed.Provides event ∧ DeliveredInOrder feed engine' event) :
    Judged node feed (ConsensusEngine.arrive tree event) := by
  subst htree
  match event, hmet with
  | .outcome (.finalizedBlock block ancestors), hmet =>
      exact h.insertFinalized hlinked hfair hmet.1 hmet.2
  | .outcome (.fullBlock _), _ => exact h
  | .outcome (.proof _ _), _ => exact h
  | .message _, _ => exact h
  | .timeout _, _ => exact h

end Judged

/-- **The verdicts of a full node**, in a state of a run and at the next event. -/
structure Agrees (node : FullNode X) (feed : Feed (engine.withExecutionWitnesses X schedule))
    (engine' : ConsensusEngine (engine.withExecutionWitnesses X schedule)) : Prop where
  /-- The full node has a state after every stored block, with the root of its header. -/
  stored : ∀ hash block, engine'.tree.provider.blocksByHash.get hash = some block →
    ∃ S, node.StateAfter block S ∧ S.stateRoot X.toTrieExternals = block.stateRoot
  /-- What is remembered as invalid is the hash of no valid block. -/
  remembered : ∀ hash, engine.invalidHeaderCache.Cached engine'.tree.invalidHeaders hash →
    ∀ block, node.Valid block → block.hash ≠ hash
  /-- A `Valid` for a payload names a valid block. -/
  accepted : ∀ event engine'', feed.Provides event ∧ DeliveredInOrder feed engine' event →
    Step engine' event engine'' → ∃ sent, engine''.responses = engine'.responses ++ sent ∧
      ∀ tx status, .payload tx (.ok status) ∈ sent → status.status = .valid →
        ∃ block, node.Valid block ∧ status.latestValidHash = some block.hash
  /-- An `Invalid`, for a payload or a head, names the hash of no valid block. -/
  refused : ∀ event engine'', feed.Provides event ∧ DeliveredInOrder feed engine' event →
    Step engine' event engine'' → ∀ hash status message,
      AnswersBlock engine' event engine'' hash status → status.status = .invalid message →
        ∀ block, node.Valid block → block.hash ≠ hash

/-- **A stateless node judges as a full node**, in every run, if no delivered proof hides what
its block reads or changes. -/
theorem agrees_of_orderedRun (hrelies : Relies X engine schedule triePreimage)
    (hlaunched : node.WellLaunched triePreimage) (hbeside : node.Beside feed)
    (hfair : node.FairlyFed feed) (hlinked : feed.Linked)
    {trace : List (Processed ExecutionStateWitness)}
    {engine' : ConsensusEngine (engine.withExecutionWitnesses X schedule)}
    (run : OrderedRun feed (launch _ node.genesis) trace engine') :
    node.Agrees feed engine' := by
  obtain ⟨hjudged, hfed⟩ := Judged.of_run hrelies hlaunched hbeside hfair hlinked run
  refine ⟨fun hash block hget => ?_, hjudged.cached, ?_, ?_⟩
  · obtain ⟨S, hafter⟩ := hjudged.stored hash block hget
    exact ⟨S, hafter, hafter.stateRoot hlaunched⟩
  · intro event engine'' hmet step
    obtain ⟨sent, hsent, htruthful⟩ := step.truthful
    refine ⟨sent, hsent, fun tx status hmem hvalid => ?_⟩
    obtain ⟨hash, hlatest, hcontains⟩ := htruthful tx status hmem hvalid
    obtain ⟨_, hstored⟩ := ChainState.contains_iff_sealedHeader.mp hcontains
    obtain ⟨block, hget, -⟩ := ChainState.sealedHeader_eq_some.mp hstored
    have hnext := (Judged.of_run hrelies hlaunched hbeside hfair hlinked (run.step hmet step)).1
    exact ⟨block, hnext.stored hash block hget, by rw [hlatest, ChainState.hash_of_get hget]⟩
  · intro event engine'' hmet step hash status message answers hinvalid valid hvalid
    have hgrounds := ConsensusEngine.Step.grounds (X := engine.withExecutionWitnesses X schedule)
      hrelies.cache step hmet.1 hfed answers hinvalid
    exact (hjudged.arrive hlinked hfair rfl hmet).grounds hrelies hlaunched hbeside hfair hgrounds
      hvalid

end FullNode

end Runs

namespace SmallTries

/-! ### One block with the right root, and one with a wrong one -/

/-- The root of the block is that of the unchanged state. -/
def wrongBlock : Block := ⟨⟨⟨1, 1, 1, 0⟩, 3⟩, []⟩

def bareHeaders : List SealedHeader :=
  [touchParent, (touchBlock 2).toSealedHeader, wrongBlock.toSealedHeader]

/-- An engine that makes the checks of the verifier. -/
def checkingEngine : Externals :=
  { SmallWorld.externals with
    validateBlockPreExecution := bareExternals.validateBlockPreExecution }

def touchNode : FullNode bareExternals where
  codes _ := none
  preimage := SmallWorld.preimageOf bareHeaders
  genesis := bareGenesis
  genesisState := oneAccount 1 .empty

/-- Both blocks, each with a proof that shows the account. -/
def revealingFeed : Feed (checkingEngine.withExecutionWitnesses bareExternals id) where
  preimage := SmallWorld.preimageOf bareHeaders
  preimage_keyed := SmallWorld.preimageOf_keyed _
  blocks := {touchBlock 2, wrongBlock}
  proofs _ := {revealingProof}
  finalized := ∅
  states := Set.univ
  blocks_conform block hblock := by
    rcases hblock with rfl | rfl <;> decide +kernel
  finalized_conform _ hpair := hpair.elim
  ancestors_conform _ hpair := hpair.elim

/-- The full node finds the account. -/
theorem touchNode_answer (nonce : ℕ) (parent : BlockNumHash) :
    touchNode.answer (oneAccount nonce .empty) parent (.basic 1)
      = .ok (some ⟨0, nonce, 0, none⟩) := by
  have haddress : bareExternals.hashedAddress 1 = address := by decide +kernel
  show Except.ok ((oneAccount nonce .empty).basic bareExternals.toEvmExternals 1) = .ok _
  unfold CompleteState.basic
  rw [haddress, get_oneAccount, if_pos rfl]
  rfl

/-- Over a state with the account, every block changes it. -/
theorem touchNode_execute {nonce : ℕ} (block : Block) :
    touchNode.execute (oneAccount nonce .empty) block = .ok touched :=
  VerifierExternals.executeWith_of_run (Query.run_ask (touchNode_answer nonce _))

theorem touchNode_asked (nonce : ℕ) (block : Block) :
    (bareExternals.executeBlock block).asked
      (touchNode.answer (oneAccount nonce .empty) block.parentNumHash) = [.basic 1] :=
  (Query.asked_ask (touchNode_answer nonce _)).trans rfl

theorem apply_touched_again :
    (oneAccount 2 .empty).apply bareExternals.keccakEmpty touched = oneAccount 2 .empty :=
  congrArg CompleteState.mk (by decide +kernel)

/-- The full node is in one of two states. -/
theorem touchNode_states {block : Block} {S : CompleteState} (h : touchNode.StateAfter block S) :
    S = oneAccount 1 .empty ∨ S = oneAccount 2 .empty := by
  induction h with
  | genesis => exact .inl rfl
  | imported _ _ _ imports ih =>
      obtain ⟨output, hexecute, -, rfl⟩ := imports.executes
      right
      rcases ih with rfl | rfl
      · cases (touchNode_execute _).symm.trans hexecute
        exact apply_touched
      · cases (touchNode_execute _).symm.trans hexecute
        exact apply_touched_again

theorem touchNode_wellLaunched : touchNode.WellLaunched (preimage touchedTries) where
  genesisConforms := by decide +kernel
  genesisNumber := rfl
  genesisHeader := rfl
  genesisBody := rfl
  genesisOrphan := by decide +kernel
  genesisRoot := by decide +kernel
  genesisState := touch_conforms 1 (.inl rfl)
  executed := by
    intro parent S block output hafter hexecute
    rcases touchNode_states hafter with rfl | rfl
    · cases (touchNode_execute _).symm.trans hexecute
      have hsame : (oneAccount 1 .empty).apply bareExternals.keccakEmpty touched = _ :=
        apply_touched
      exact hsame ▸ touch_conforms 2 (.inr rfl)
    · cases (touchNode_execute _).symm.trans hexecute
      exact apply_touched_again ▸ touch_conforms 2 (.inr rfl)

theorem touchNode_beside : touchNode.Beside revealingFeed := ⟨rfl, rfl, rfl⟩

theorem checkingEngine_relies : FullNode.Relies bareExternals checkingEngine id
    (preimage touchedTries) where
  lawful := @externals_lawful touchedTries touchAccount
  linked := @externals_revealsLinked touchedTries touchAccount
  scheduled _ := List.Perm.refl _
  numbers header parent hok := by
    by_contra hnumber
    replace hok : (if header.number = parent.number + 1 then Except.ok ()
      else .error (ConsensusError.other "parent number mismatch")) = .ok () := hok
    rw [if_neg hnumber] at hok
    cases hok
  cache := SmallWorld.cache_lawful
  blames error validationErr hok := by
    cases error with
    | consensus error => exact trivial
    | execution error =>
        cases error with
        | validation message => exact trivial
        | internal error => cases hok
    | provider error => cases hok
    | other message => cases hok

/-- The proof reveals the account. -/
theorem revealingProof_shows {trie : bareExternals.StateTrie}
    (htrie : bareExternals.revealWitness bareExternals.new touchParent.stateRoot
      (bareExternals.stateWitness revealingProof.state) = .ok trie) :
    bareExternals.ShowsAccount trie address := by
  have hshows : (touchExternals.revealWitness touchExternals.new touchParent.stateRoot
      (touchExternals.stateWitness revealingProof.state)).toOption.any (fun trie =>
        (touchExternals.sparseTrie.shows (touchExternals.accountTrie trie) address).isSome) := by
    decide +kernel
  obtain ⟨trie', htrie', hshown⟩ := (Option.any_eq_true _ _).mp hshows
  cases htrie.symm.trans (ok_of_toOption htrie')
  exact Option.isSome_iff_ne_none.mp hshown

theorem revealingFeed_fair : touchNode.FairlyFed revealingFeed where
  bodies := by
    rintro block hblock ⟨header, body⟩ hvalid hheader
    have hbody : (if body = [] then Except.ok ()
      else .error (ConsensusError.other "body mismatch")) = .ok () :=
        (hvalid.checked touchNode_wellLaunched).2
    obtain rfl : body = [] := by
      by_contra hne
      rw [if_neg hne] at hbody
      cases hbody
    rcases hblock with rfl | rfl <;> cases hheader <;> rfl
  finalized _ hpair := hpair.elim
  proofs := by
    intro block hblock proof hproof parent S hafter hhash
    have hparent : parent.toSealedHeader = touchParent := by
      have hconforms := FullNode.Valid.conforms ⟨S, hafter⟩ touchNode_wellLaunched
      have hone : parent.hash = 1 := by
        rcases hblock with rfl | rfl <;> exact hhash
      rw [SealedHeader.Conforms, hone] at hconforms
      exact Option.some.inj (hconforms.symm.trans (by decide +kernel))
    obtain rfl : proof = revealingProof := hproof
    have hstate : ∃ nonce, S = oneAccount nonce .empty :=
      (touchNode_states hafter).elim (fun h => ⟨1, h⟩) fun h => ⟨2, h⟩
    obtain ⟨nonce, rfl⟩ := hstate
    rw [hparent]
    refine ⟨List.forall_mem_nil _, fun trie htrie query hasked => ?_,
      fun trie htrie output hexecute => ?_⟩
    · have haddress : bareExternals.hashedAddress 1 = address := by decide +kernel
      rw [touchNode_asked, List.mem_singleton] at hasked
      rw [hasked]
      left
      rw [haddress]
      exact revealingProof_shows htrie
    · cases (touchNode_execute _).symm.trans hexecute
      -- the post-state has no storage
      refine ⟨fun _ _ hget => ?_, fun _ _ hget => ?_⟩
      · cases hget
      · cases hget

/-- The run: the first block is stored, the second is remembered as invalid. -/
def judgedBlocks : List (Processed ExecutionStateWitness) :=
  [.outcome (.fullBlock (touchBlock 2)), .outcome (.proof 2 revealingProof),
    .outcome (.fullBlock wrongBlock), .outcome (.proof 3 revealingProof)]

/-- Each verdict is the full node's. -/
theorem agrees_of_judgedBlocks : ∃ engine : ConsensusEngine
    (checkingEngine.withExecutionWitnesses bareExternals id),
      engine.tree.provider.Contains 2 ∧
      checkingEngine.invalidHeaderCache.Cached engine.tree.invalidHeaders 3 ∧
      touchNode.Agrees revealingFeed engine := by
  have hends : (replay ascending judgedBlocks (launch
      (checkingEngine.withExecutionWitnesses bareExternals id) bareGenesis)).any (fun engine =>
        decide (engine.tree.provider.Contains 2) &&
          ((SmallWorld.cache.contents engine.tree.invalidHeaders).get 3).isSome) = true := by
    decide +kernel
  obtain ⟨engine, hreplay, hends⟩ := (Option.any_eq_true _ _).mp hends
  obtain ⟨hstored, hcached⟩ := Bool.and_eq_true_iff.mp hends
  have hmeets : ∀ engine, ∀ event ∈ judgedBlocks,
      revealingFeed.Provides event ∧ DeliveredInOrder revealingFeed engine event := by
    intro engine
    unfold judgedBlocks
    simp only [List.forall_mem_cons]
    exact ⟨⟨.inl rfl, trivial⟩, ⟨rfl, trivial⟩, ⟨.inr rfl, trivial⟩, ⟨rfl, trivial⟩,
      List.forall_mem_nil _⟩
  exact ⟨engine, of_decide_eq_true hstored, Option.isSome_iff_exists.mp hcached,
    FullNode.agrees_of_orderedRun checkingEngine_relies touchNode_wellLaunched touchNode_beside
      revealingFeed_fair (fun _ hpair => hpair.elim)
      (.of_replay hmeets hreplay)⟩

end SmallTries

end ZkRess
