import ZkRess.Engine.TreeSteps

/-!
# The entries of the invalid cache

The tree writes into the invalid cache in two places.  A rejected block is recorded
under its own hash, and a block with an ancestor that has an entry takes over the entry
of that ancestor.  In every run an entry therefore refers to the block of its hash or to
an ancestor (`EntriesRefer`), and the parent it names is a proper ancestor.

A walk from an entry to the entry of its parent goes down, so it does not return
(`EntriesRefer.noReturn`).
-/

namespace ZkRess

open Foundation

variable {X : Externals} {feed : Feed X}

/-- Walking down from a hash through known headers reaches the other hash, in one step
at least. -/
def Feed.Below (feed : Feed X) (lower hash : B256) : Prop :=
  ∃ headers, headers ≠ [] ∧ Path feed.preimage (fun header => header.parentHash) hash headers lower

namespace Feed.Below

variable {lower middle hash : B256}

theorem of_parent {block : Block} (h : block ∈ feed.blocks) :
    feed.Below block.parentHash block.hash :=
  ⟨[block.toSealedHeader], List.cons_ne_nil _ _, .cons (feed.blocks_conform block h) (.nil _)⟩

theorem descends (h : feed.Below lower middle) (h' : feed.Descends hash middle) :
    feed.Below lower hash := by
  obtain ⟨headers, hpath⟩ := h'
  exact Foundation.Below.of_path h hpath

theorem trans (h : feed.Below lower middle) (h' : feed.Below middle hash) :
    feed.Below lower hash :=
  Foundation.Below.trans h h'

/-- A hash with something below it has a header. -/
theorem known (h : feed.Below lower hash) : feed.preimage hash ≠ none := by
  obtain ⟨headers, hne, hpath⟩ := h
  cases hpath with
  | nil => exact absurd rfl hne
  | cons found _ =>
      rw [found]
      exact Option.some_ne_none _

theorem irrefl (hacyclic : feed.Acyclic) : ¬feed.Below hash hash := Foundation.Below.irrefl hacyclic

end Feed.Below

/-- **The parent that an entry names is below the entry's hash.** -/
def EntriesRefer (feed : Feed X) (s : X.invalidHeaderCache.State) : Prop :=
  ∀ hash entry, (X.invalidHeaderCache.contents s).get hash = some entry →
    feed.Below entry.parent hash

namespace EntriesRefer

variable {s s' : X.invalidHeaderCache.State} {tree tree' : EngineTree X}

theorem new (hlawful : X.invalidHeaderCache.Lawful) :
    EntriesRefer feed X.invalidHeaderCache.new := by
  intro hash entry h
  cases (hlawful.new_empty hash).symm.trans h

theorem get (hlawful : X.invalidHeaderCache.Lawful) (h : EntriesRefer feed s) (hash : B256) :
    EntriesRefer feed (X.invalidHeaderCache.get s hash).2 :=
  fun hash' entry hentry => h hash' entry (hlawful.get_shrinks s hash hash' entry hentry)

theorem peeks (hlawful : X.invalidHeaderCache.Lawful) (h : EntriesRefer feed tree.invalidHeaders)
    (hpeeks : EngineTree.Peeks tree tree') : EntriesRefer feed tree'.invalidHeaders :=
  fun hash entry hentry => h hash entry (hpeeks.shrinks hlawful hash entry hentry)

/-! ### What the tree writes -/

theorem checks (hlawful : X.invalidHeaderCache.Lawful) (h : EntriesRefer feed tree.invalidHeaders)
    {check head : B256} {status : Option PayloadStatus}
    (hchecks : EngineTree.Checks tree check head status tree')
    (hdescends : feed.Descends head check) :
    EntriesRefer feed tree'.invalidHeaders := by
  match hchecks with
  | .clear peeks _ => exact h.peeks hlawful peeks
  | .invalid peeks found _ =>
      intro hash entry hentry
      rcases hlawful.insertWith_adds _ _ _ _ _ hentry with ⟨rfl, rfl⟩ | hold
      · exact (h check entry (hlawful.get_sound _ _ _ found)).descends hdescends
      · exact h.peeks hlawful peeks hash entry hold

theorem fails (hlawful : X.invalidHeaderCache.Lawful) (h : EntriesRefer feed tree.invalidHeaders)
    {block : Block} (hblock : block ∈ feed.blocks) {kind : InsertBlockErrorKind}
    {result : Except InsertBlockFatalError PayloadStatus}
    (hfails : EngineTree.Fails tree block kind result tree') :
    EntriesRefer feed tree'.invalidHeaders := by
  match hfails with
  | .fatal _ => exact h
  | .invalid _ peeks =>
      intro hash entry hentry
      rcases hlawful.insert_adds _ _ _ _ hentry with ⟨rfl, rfl⟩ | hold
      · exact .of_parent hblock
      · exact h.peeks hlawful peeks hash entry hold

theorem connects (hlawful : X.invalidHeaderCache.Lawful)
    (h : EntriesRefer feed tree.invalidHeaders) {child : Block} (hchild : child ∈ feed.blocks)
    {proof : X.Proof} {result : Except InsertBlockFatalError Unit}
    (hconnects : EngineTree.Connects tree child proof result tree') :
    EntriesRefer feed tree'.invalidHeaders := by
  match hconnects with
  | .inserted inserts _ => rwa [inserts.invalidHeaders]
  | .syncTarget inserts _ => rwa [EngineTree.makeCanonical_invalidHeaders, inserts.invalidHeaders]
  | .failed inserts fails | .failedFatally inserts fails =>
      rw [← inserts.invalidHeaders] at h
      exact h.fails hlawful hchild fails

theorem connectBlocks (hlawful : X.invalidHeaderCache.Lawful)
    (h : EntriesRefer feed tree.invalidHeaders) (blocks : List (Block × X.Proof))
    (hblocks : ∀ pair ∈ blocks, pair.1 ∈ feed.blocks) :
    EntriesRefer feed (EngineTree.connectBlocks blocks tree).2.invalidHeaders := by
  obtain ⟨_, ⟨hend, -⟩, -⟩ := EngineTree.connectBlocks_preserves
    (fun rest tree' => EntriesRefer feed tree'.invalidHeaders ∧ ∀ pair ∈ rest, pair.1 ∈ feed.blocks)
    (fun {child proof _ _ _ _} hrest hconnects =>
      ⟨hrest.1.connects hlawful (hrest.2 (child, proof) List.mem_cons_self) hconnects,
        fun pair hpair => hrest.2 pair (List.mem_cons_of_mem _ hpair)⟩)
    blocks ⟨h, hblocks⟩
  exact hend

theorem tryConnects (hlawful : X.invalidHeaderCache.Lawful)
    (h : EntriesRefer feed tree.invalidHeaders) (hfed : FedBy feed tree.blockBuffer)
    {σ : SetOrder B256} {parentHash : B256} {result : Except InsertBlockFatalError Unit}
    (hconnect : EngineTree.tryConnectBufferedBlocks σ tree parentHash = (result, tree')) :
    EntriesRefer feed tree'.invalidHeaders := by
  have hremoved := BlockBuffer.removeBlockWithChildren_spec σ parentHash hfed.wellFormed
  have hblocks := connectBlocks hlawful
    (show EntriesRefer feed { tree with
      blockBuffer := (tree.blockBuffer.removeBlockWithChildren σ parentHash).2 }.invalidHeaders
      from h)
    (tree.blockBuffer.removeBlockWithChildren σ parentHash).1
    fun pair hpair => (hfed.ready_fed (hremoved.ready pair hpair)).1
  rw [EngineTree.tryConnectBufferedBlocks_eq] at hconnect
  rwa [hconnect] at hblocks

/-! ### The handlers -/

theorem handles (hlawful : X.invalidHeaderCache.Lawful) (h : EntriesRefer feed tree.invalidHeaders)
    (hfed : FedBy feed tree.blockBuffer) {σ : SetOrder B256} {check : B256} {block : Block}
    (hblock : block ∈ feed.blocks) (hdescends : feed.Descends block.hash check)
    {maybeProof : Option X.Proof}
    (hproof : ∀ proof, maybeProof = some proof → proof ∈ feed.proofs block.hash)
    {result : Except InsertBlockFatalError (TreeOutcome PayloadStatus)}
    (hhandles : EngineTree.Handles σ tree check block maybeProof result tree') :
    EntriesRefer feed tree'.invalidHeaders := by
  have hconnect :
      ∀ {tree₁ tree₂ tree₃ result r}, EngineTree.Checks tree check block.hash none tree₁ →
      EngineTree.Inserts tree₁ block maybeProof (.ok result) tree₂ →
      EngineTree.tryConnectBufferedBlocks σ tree₂ block.hash = (r, tree₃) →
      EntriesRefer feed tree₃.invalidHeaders := by
    intro tree₁ tree₂ tree₃ result r checks inserts connects
    have h₁ := h.checks hlawful checks hdescends
    have htakes := (checks.takes hfed hblock hdescends).fed
    rw [← inserts.invalidHeaders] at h₁
    exact h₁.tryConnects hlawful (inserts.takes htakes hblock hproof).fed connects
  match hhandles with
  | .invalidAncestor checks => exact h.checks hlawful checks hdescends
  | .connected checks inserts _ connects _ | .connectFailed checks inserts _ connects =>
      exact hconnect checks inserts connects
  | .seen checks inserts | .disconnected checks inserts | .noProof checks inserts =>
      rw [inserts.invalidHeaders]
      exact h.checks hlawful checks hdescends
  | .failed checks inserts fails | .failedFatally checks inserts fails =>
      have h₁ := h.checks hlawful checks hdescends
      rw [← inserts.invalidHeaders] at h₁
      exact h₁.fails hlawful hblock fails

theorem onDownloadedBlock (hlawful : X.invalidHeaderCache.Lawful)
    (h : EntriesRefer feed tree.invalidHeaders) (hfed : FedBy feed tree.blockBuffer)
    (σ : SetOrder B256) {block : Block} {proof : X.Proof} (hblock : block ∈ feed.blocks)
    (hproof : proof ∈ feed.proofs block.hash) :
    EntriesRefer feed (EngineTree.onDownloadedBlock σ tree block proof).2.invalidHeaders := by
  refine h.handles hlawful hfed hblock
    (EngineTree.descends_lowestBufferedAncestorOr hfed block.hash)
    ?_ (EngineTree.onDownloadedBlock_cases σ tree block proof)
  rintro proof' ⟨⟩
  exact hproof

theorem onNewPayload (hlawful : X.invalidHeaderCache.Lawful)
    (h : EntriesRefer feed tree.invalidHeaders) (hfed : FedBy feed tree.blockBuffer)
    (σ : SetOrder B256) {payload : ExecutionData} (maybeProof : Option X.Proof)
    (hpayload : ∀ block, X.ensureWellFormedPayload payload = .ok block →
      block ∈ feed.blocks ∧ ∀ proof, maybeProof = some proof → proof ∈ feed.proofs block.hash) :
    EntriesRefer feed (EngineTree.onNewPayload σ tree payload maybeProof).2.invalidHeaders := by
  match hformed : X.ensureWellFormedPayload payload with
  | .error error =>
      obtain ⟨latestValidHash, tree', hpeeks, heq⟩ :=
        EngineTree.onNewPayload_malformed σ tree maybeProof hformed
      rw [heq]
      exact h.peeks hlawful hpeeks
  | .ok block =>
      obtain ⟨hblock, hproof⟩ := hpayload block hformed
      exact h.handles hlawful hfed hblock (EngineTree.descends_payloadCheck hfed hblock) hproof
        (EngineTree.onNewPayload_cases σ tree maybeProof hformed)

theorem updates (hlawful : X.invalidHeaderCache.Lawful)
    (h : EntriesRefer feed tree.invalidHeaders) {σ : SetOrder B256} {state : ForkchoiceState}
    {result : Except ProviderError (TreeOutcome OnForkChoiceUpdated)}
    (hupdates : EngineTree.Updates σ tree state result tree') :
    EntriesRefer feed tree'.invalidHeaders := by
  cases hupdates with
  | refused peeks | atHead peeks | known peeks | syncing peeks => exact h.peeks hlawful peeks
  | @inconsistent tree₁ update peeks =>
      show EntriesRefer feed tree₁.invalidHeaders
      exact h.peeks hlawful peeks
  | @applied tree₁ update result peeks =>
      rw [EngineTree.cleanUp_invalidHeaders]
      show EntriesRefer feed tree₁.invalidHeaders
      exact h.peeks hlawful peeks

/-! ### Events and runs -/

open ConsensusEngine

variable {engine engine' : ConsensusEngine X}

theorem receives (hlawful : X.invalidHeaderCache.Lawful)
    (h : EntriesRefer feed engine.tree.invalidHeaders) (hfed : FedBy feed engine.tree.blockBuffer)
    {σ : SetOrder B256} {payload : ExecutionData} {tx : ℕ}
    (hreceives : Receives σ engine payload tx engine')
    (hprovides : feed.Provides (.message (.newPayload payload tx))) :
    EntriesRefer feed engine'.tree.invalidHeaders := by
  have hhandled := onNewPayload hlawful
    (show EntriesRefer feed { engine.tree with
      blockBuffer := (engine.tree.blockBuffer.removeProof payload.blockHash).2 }.invalidHeaders
      from h)
    (hfed.removeProof payload.blockHash) σ
    (engine.tree.blockBuffer.removeProof payload.blockHash).1
    fun block hformed => by
      obtain ⟨hblock, hhash⟩ := hprovides block hformed
      refine ⟨hblock, fun proof hproof => ?_⟩
      rw [hhash]
      exact hfed.removeProof_fed hproof
  match hreceives with
  | .parked handled _ _ tree _ _ =>
      unfold callNewPayload at handled
      rw [handled] at hhandled
      rwa [tree]
  | .answered handled tree _ _ =>
      unfold callNewPayload at handled
      rw [handled] at hhandled
      rwa [tree, EngineTree.carryOut_invalidHeaders]

theorem unlocks (hlawful : X.invalidHeaderCache.Lawful)
    (h : EntriesRefer feed engine.tree.invalidHeaders) {σ : SetOrder B256} {hash : B256}
    (hfed : FedExcept feed hash engine.tree.blockBuffer)
    (hunlocks : Unlocks σ engine hash engine') : EntriesRefer feed engine'.tree.invalidHeaders := by
  cases hunlocks with
  | locked _ same => rwa [same]
  | @handled block proof result tree' ready handled tree =>
      have hproof := hfed.proofs hash _ ready.2
      rw [← BlockBuffer.hash_of_get ready.1] at hproof
      have hhandled := onDownloadedBlock hlawful
        (show EntriesRefer feed (takeOut engine.tree hash block).invalidHeaders from h)
        (hfed.drop ready) σ (hfed.blocks hash block ready.1) hproof
      rw [handled] at hhandled
      rwa [tree, EngineTree.carryOut_invalidHeaders]

/-- Every event. -/
theorem step (hlawful : X.invalidHeaderCache.Lawful)
    (h : EntriesRefer feed engine.tree.invalidHeaders) (hfed : FedBy feed engine.tree.blockBuffer)
    {event : Processed X.Proof} (hstep : Step engine event engine')
    (hprovides : feed.Provides event) : EntriesRefer feed engine'.tree.invalidHeaders := by
  match hstep with
  | .message σ (.newPayload payload tx) _ =>
      exact h.receives hlawful hfed (onEngineMessage_newPayload σ engine payload tx) hprovides
  | .message σ (.forkchoiceUpdated state payloadAttrs tx version) _ =>
      match onEngineMessage_forkchoiceUpdated σ engine state payloadAttrs tx version with
      | .answered handled tree _ _ =>
          have hupdated := h.updates hlawful
            (EngineTree.onForkchoiceUpdated_cases σ engine.tree state payloadAttrs version)
          rw [handled] at hupdated
          rwa [tree, EngineTree.carryOut_invalidHeaders, EngineTree.track_invalidHeaders]
  | .outcome σ data handled =>
      match onDownloadOutcome_cases handled with
      | .dropped _ same => rwa [same]
      | .stored hunlocks =>
          refine unlocks hlawful ?_ (FedBy.store hfed hprovides) hunlocks
          show EntriesRefer feed (store engine.tree data).invalidHeaders
          rw [store_eq_receive]
          match data with
          | .finalizedBlock _ _ => exact h
          | .fullBlock _ => exact h
          | .proof _ _ => exact h
  | .timeout _ _ => exact h

/-- **In every run** the entries of the cache refer to ancestors. -/
theorem of_run (hlawful : X.invalidHeaderCache.Lawful) {genesis : Block}
    {trace : List (Processed X.Proof)} (run : FedRun feed (launch X genesis) trace engine) :
    EntriesRefer feed engine.tree.invalidHeaders := by
  have hboth :
      EntriesRefer feed engine.tree.invalidHeaders ∧ FedBy feed engine.tree.blockBuffer := by
    induction run with
    | start => exact ⟨.new hlawful, .new feed⟩
    | polled _ _ ih => exact ih
    | step _ met step ih => exact ⟨ih.1.step hlawful ih.2 step met, (step.takes ih.2 met).fed⟩
  exact hboth.1

end EntriesRefer

end ZkRess
