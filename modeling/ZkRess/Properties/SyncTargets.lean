import ZkRess.Engine.Canonicalization
import ZkRess.Engine.SmallWorld

/-!
# The sync target becomes canonical

After a fork-choice update that was answered `SYNCING` its head is the sync target, until
the next update (`SyncsTo`).  When a handed over block brings the sync target into the
provider, be it the block itself or one of its buffered descendants, it is to become the
canonical head.

A new payload and a downloaded block are made canonical at the end of the call.  A buffered
descendant is made canonical as soon as it is inserted, and the branch of the previous head
may have blocks that are inserted after it (`late_branch_misses_target`).  Then `on_new_head`
finds no chain, and nothing makes up for it later (`syncTarget_installed_iff`).
-/

namespace ZkRess

open Foundation ConsensusEngine EngineTree

variable {X : Externals} {feed : Feed X} {genesis : Block}

/-! ## The sync target -/

/-- **The last fork-choice update** had the hash as its head, and was answered `SYNCING`. -/
inductive SyncsTo (feed : Feed X) (genesis : Block) (target : B256) : ConsensusEngine X → Prop
  /-- The update is answered. -/
  | answered {trace engine state payloadAttrs tx version latest} (σ : SetOrder B256)
      (run : FedRun feed (launch X genesis) trace engine) (unparked : engine.parkedPayload = none)
      (provided : feed.Provides (.message (.forkchoiceUpdated state payloadAttrs tx version)))
      (head : state.headBlockHash = target)
      (response : (engine.onEngineMessage σ
        (.forkchoiceUpdated state payloadAttrs tx version)).responses
          = engine.responses ++ [.forkchoice tx (.ok (.valid ⟨.syncing, latest⟩))]) :
      SyncsTo feed genesis target
        (engine.onEngineMessage σ (.forkchoiceUpdated state payloadAttrs tx version))
  /-- Requests in flight advance. -/
  | polled {engine} (syncs : SyncsTo feed genesis target engine)
      (downloader : EngineDownloader X.Proof) :
        SyncsTo feed genesis target { engine with downloader }
  /-- Any other event. -/
  | later {engine event engine'} (syncs : SyncsTo feed genesis target engine)
      (provided : feed.Provides event)
      (other : ∀ state payloadAttrs tx version,
        event ≠ .message (.forkchoiceUpdated state payloadAttrs tx version))
      (step : Step engine event engine') : SyncsTo feed genesis target engine'

private theorem callNewPayload_forkchoiceStateTracker (σ : SetOrder B256) (tree : EngineTree X)
    (payload : ExecutionData) :
    (callNewPayload σ tree payload).2.forkchoiceStateTracker = tree.forkchoiceStateTracker := by
  unfold callNewPayload
  match hformed : X.ensureWellFormedPayload payload with
  | .ok block => exact (onNewPayload_cases σ _ _ hformed).forkchoiceStateTracker
  | .error error =>
      obtain ⟨latestValidHash, tree', peeks, heq⟩ := onNewPayload_malformed σ
        { tree with blockBuffer := (tree.blockBuffer.removeProof payload.blockHash).2 }
        (tree.blockBuffer.removeProof payload.blockHash).1 hformed
      rw [heq]
      exact peeks.forkchoiceStateTracker

private theorem onDownloadedBlock_forkchoiceStateTracker {σ : SetOrder B256}
    {tree tree' : EngineTree X} {block : Block} {proof : X.Proof}
    {result : Except InsertBlockFatalError (TreeOutcome PayloadStatus)}
    (h : onDownloadedBlock σ tree block proof = (result, tree')) :
    tree'.forkchoiceStateTracker = tree.forkchoiceStateTracker := by
  have hhandles := onDownloadedBlock_cases σ tree block proof
  rw [h] at hhandles
  exact hhandles.forkchoiceStateTracker

private theorem store_forkchoiceStateTracker (tree : EngineTree X) (data : DownloadData X.Proof) :
    (store tree data).forkchoiceStateTracker = tree.forkchoiceStateTracker := by
  cases data <;> rfl

/-- Handling anything but a fork-choice update does not touch the sync target. -/
theorem ConsensusEngine.Step.forkchoiceStateTracker {engine engine' : ConsensusEngine X}
    {event : Processed X.Proof} (step : Step engine event engine')
    (other : ∀ state payloadAttrs tx version,
      event ≠ .message (.forkchoiceUpdated state payloadAttrs tx version)) :
    engine'.tree.forkchoiceStateTracker = engine.tree.forkchoiceStateTracker := by
  match step with
  | .timeout _ _ => rfl
  | .message σ (.forkchoiceUpdated state payloadAttrs tx version) _ =>
      exact absurd rfl (other state payloadAttrs tx version)
  | .message σ (.newPayload payload tx) _ =>
      have hcall := callNewPayload_forkchoiceStateTracker σ engine.tree payload
      match onEngineMessage_newPayload σ engine payload tx with
      | .parked handled _ _ tree _ _ =>
          rw [handled] at hcall
          rw [tree]
          exact hcall
      | .answered handled tree _ _ =>
          rw [handled] at hcall
          rw [tree, carryOut_forkchoiceStateTracker]
          exact hcall
  | .outcome σ data handled =>
      match onDownloadOutcome_cases handled with
      | .dropped _ same => rw [same]
      | .stored (.locked _ same) =>
          rw [same]
          exact store_forkchoiceStateTracker engine.tree data
      | .stored (.handled _ handled tree _) =>
          rw [tree, carryOut_forkchoiceStateTracker,
            onDownloadedBlock_forkchoiceStateTracker handled]
          exact store_forkchoiceStateTracker engine.tree data

/-- An update answered `SYNCING` is tracked. -/
private theorem targets_of_answer (htracker : X.forkchoiceStateTracker.Lawful)
    (htracks : X.TracksSyncing) {target : B256} {state : ForkchoiceState}
    (head : state.headBlockHash = target) {tx : ℕ} {latest : Option B256}
    {result : Except ProviderError (TreeOutcome OnForkChoiceUpdated)}
    (answer : [Response.forkchoice tx (.ok (.valid ⟨.syncing, latest⟩))]
      = [.forkchoice tx (result.map TreeOutcome.outcome)]) {tree tree' : EngineTree X}
    (handled : tree = (tree'.track state result).carryOut (resultEvent result)) :
    tree.Targets target := by
  match result, answer with
  | .ok outcome, answer =>
      have houtcome : outcome.outcome = .valid ⟨.syncing, latest⟩ := by
        simpa [Except.map, eq_comm] using answer
      have hsyncing : X.forkchoiceStatus outcome.outcome = .syncing :=
        (htracks _).mpr ⟨latest, houtcome⟩
      refine ⟨state, ?_, head⟩
      rw [handled, carryOut_forkchoiceStateTracker]
      show X.forkchoiceStateTracker.syncTargetState (X.forkchoiceStateTracker.setLatest
        tree'.forkchoiceStateTracker state (X.forkchoiceStatus outcome.outcome)) = some state
      rw [hsyncing]
      exact htracker.syncing _ _
  | .error error, answer => simp [Except.map] at answer

/-- **The head of the last update is the sync target.** -/
theorem SyncsTo.targets (htracker : X.forkchoiceStateTracker.Lawful) (htracks : X.TracksSyncing)
    {target : B256} {engine : ConsensusEngine X} (h : SyncsTo feed genesis target engine) :
    (∃ trace, FedRun feed (launch X genesis) trace engine) ∧ engine.tree.Targets target := by
  induction h with
  | @answered trace engine state payloadAttrs tx version latest σ run unparked provided head
      response =>
      refine ⟨⟨_, .step run provided (.message σ _ unparked)⟩, ?_⟩
      match onEngineMessage_forkchoiceUpdated σ engine state payloadAttrs tx version with
      | .answered handled tree _ responses =>
          exact targets_of_answer htracker htracks head
            (List.append_cancel_left (response.symm.trans responses)) tree
  | polled _ downloader ih => exact ⟨ih.1.imp fun _ run => .polled run downloader, ih.2⟩
  | later _ provided other step ih =>
      obtain ⟨⟨trace, run⟩, htargets⟩ := ih
      exact ⟨⟨_, .step run provided step⟩, htargets.of_tracker (step.forkchoiceStateTracker other)⟩

/-- Replaying anything but fork-choice updates does not change the sync target. -/
theorem SyncsTo.of_replay {σ : SetOrder B256} {target : B256} {trace : List (Processed X.Proof)}
    (hother : ∀ event ∈ trace, feed.Provides event ∧ ∀ state payloadAttrs tx version,
      event ≠ .message (.forkchoiceUpdated state payloadAttrs tx version)) :
    ∀ {engine engine' : ConsensusEngine X}, SyncsTo feed genesis target engine →
      replay σ trace engine = some engine' → SyncsTo feed genesis target engine' := by
  induction trace with
  | nil =>
      intro engine engine' h hreplay
      cases hreplay
      exact h
  | cons event trace ih =>
      intro engine engine' h hreplay
      obtain ⟨provided, other⟩ := hother event List.mem_cons_self
      obtain ⟨next, step, hreplay⟩ := replay_cons hreplay
      exact ih (fun event hmem => hother event (List.mem_cons_of_mem _ hmem))
        (h.later provided other step) hreplay

/-- An update for which the tree is syncing is answered so. -/
theorem SyncsTo.of_update {σ : SetOrder B256} {trace : List (Processed X.Proof)}
    {engine : ConsensusEngine X} {state : ForkchoiceState} {version : UInt8}
    {latest : Option B256} (tx : ℕ) (run : FedRun feed (launch X genesis) trace engine)
    (unparked : engine.parkedPayload = none) (announced : state ∈ feed.states)
    (h : (onForkchoiceUpdated σ engine.tree state none version).1.toOption.map TreeOutcome.outcome
      = some (.valid ⟨.syncing, latest⟩)) :
    SyncsTo feed genesis state.headBlockHash
      (engine.onEngineMessage σ (.forkchoiceUpdated state none tx version)) := by
  have hresponse : (engine.onEngineMessage σ (.forkchoiceUpdated state none tx version)).responses
      = engine.responses ++ [.forkchoice tx (.ok (.valid ⟨.syncing, latest⟩))] := by
    match onEngineMessage_forkchoiceUpdated σ engine state none tx version with
    | @Chooses.answered _ _ _ _ _ _ _ _ result _ handled _ _ responses =>
        rw [handled] at h
        rw [responses]
        match result, h with
        | .ok outcome, h => rw [Except.map, Option.some.inj h]
  have hprovided : feed.Provides (.message (.forkchoiceUpdated state none tx version)) := announced
  exact .answered σ run unparked hprovided rfl hresponse

/-! ## Handing over a block -/

/-- **An event hands a block to the tree**: a new payload, or a block or proof that
completes a pair in the buffer. -/
inductive HandsOver (σ : SetOrder B256) (engine : ConsensusEngine X) :
    Processed X.Proof → EngineTree X → Block →
      Except InsertBlockFatalError (TreeOutcome PayloadStatus) → ConsensusEngine X → Prop
  | payload {payload tx block} (unparked : engine.parkedPayload = none)
      (formed : X.ensureWellFormedPayload payload = .ok block) :
      HandsOver σ engine (.message (.newPayload payload tx))
        { engine.tree with
          blockBuffer := (engine.tree.blockBuffer.removeProof payload.blockHash).2 } block
        (callNewPayload σ engine.tree payload).1
        (engine.onEngineMessage σ (.newPayload payload tx))
  | download {data block proof engine'}
      (fetched : ∀ block ancestors, data ≠ .finalizedBlock block ancestors)
      (recovered : ∀ block, data = .fullBlock block → X.tryRecover block = true)
      (ready : (store engine.tree data).blockBuffer.Ready (unlockedHash data) block proof)
      (handled : engine.onDownloadOutcome σ data = (.ok (), engine')) :
      HandsOver σ engine (.outcome data)
        (takeOut (store engine.tree data) (unlockedHash data) block) block
        (onDownloadedBlock σ (takeOut (store engine.tree data) (unlockedHash data) block) block
          proof).1 engine'

/-- The block is handled on the tree as it was, its buffer apart. -/
theorem HandsOver.handles {σ : SetOrder B256} {engine engine' : ConsensusEngine X}
    {event : Processed X.Proof} {called : EngineTree X} {block : Block}
    {result : Except InsertBlockFatalError (TreeOutcome PayloadStatus)}
    (h : HandsOver σ engine event called block result engine') :
    (∃ check maybeProof tree', Handles σ called check block maybeProof result tree' ∧
        engine'.tree = tree'.carryOut (resultEvent result)) ∧
      called = { engine.tree with blockBuffer := called.blockBuffer } := by
  cases h with
  | @payload payload tx block unparked formed =>
      refine ⟨⟨_, _, (callNewPayload σ engine.tree payload).2, onNewPayload_cases σ _ _ formed, ?_⟩,
        rfl⟩
      match onEngineMessage_newPayload σ engine payload tx with
      | .parked handled _ event tree _ _ =>
          rw [handled, tree]
          show _ = EngineTree.carryOut _ (TreeOutcome.event _)
          rw [event]
          rfl
      | .answered handled tree _ _ =>
          rw [handled]
          exact tree
  | @download data block proof engine' fetched recovered ready handled =>
      refine ⟨⟨_, _, _, onDownloadedBlock_cases σ _ block proof, ?_⟩, ?_⟩
      · rcases onDownloadOutcome_stores handled with ⟨block', rfl, hlost, -⟩ | ⟨-, unlocks⟩
        · cases (recovered block' rfl).symm.trans hlost
        · cases unlocks with
          | locked missing => exact absurd ⟨block, proof, ready⟩ missing
          | handled ready' handled' tree =>
              obtain rfl := Option.some.inj (ready.1.symm.trans ready'.1)
              obtain rfl := Option.some.inj (ready.2.symm.trans ready'.2)
              rw [handled']
              exact tree
      · match data, fetched with
        | .fullBlock _, _ => rfl
        | .proof _ _, _ => rfl
        | .finalizedBlock block ancestors, fetched => exact absurd rfl (fetched block ancestors)

/-- Handing over a block is a step. -/
theorem HandsOver.step {σ : SetOrder B256} {engine engine' : ConsensusEngine X}
    {event : Processed X.Proof} {called : EngineTree X} {block : Block}
    {result : Except InsertBlockFatalError (TreeOutcome PayloadStatus)}
    (h : HandsOver σ engine event called block result engine') : Step engine event engine' := by
  match h with
  | .payload unparked _ => exact .message σ _ unparked
  | .download _ _ _ handled => exact .outcome σ _ handled

/-- The buffer is in order when the block is handled. -/
theorem HandsOver.wellFormed {σ : SetOrder B256} {engine engine' : ConsensusEngine X}
    {event : Processed X.Proof} {called : EngineTree X} {block : Block}
    {result : Except InsertBlockFatalError (TreeOutcome PayloadStatus)}
    (h : HandsOver σ engine event called block result engine')
    (hfed : FedBy feed engine.tree.blockBuffer) (hprovided : feed.Provides event) :
    called.blockBuffer.WellFormed := by
  match h with
  | .payload _ _ => exact hfed.wellFormed.removeProof _
  | .download _ _ ready _ => exact ((FedBy.store hfed hprovided).drop ready).wellFormed

/-- The proof of a buffered block hands it over. -/
theorem HandsOver.of_proof (σ : SetOrder B256) {engine : ConsensusEngine X} {hash : B256}
    {block : Block} (buffered : engine.tree.blockBuffer.blocks.get hash = some block)
    (proof : X.Proof) :
    HandsOver σ engine (.outcome (.proof hash proof))
      (takeOut (store engine.tree (.proof hash proof)) hash block) block
      (onDownloadedBlock σ (takeOut (store engine.tree (.proof hash proof)) hash block)
        block proof).1
      (engine.onDownloadOutcome σ (.proof hash proof)).2 :=
  .download nofun nofun ⟨buffered, FiniteMap.get_insert_self _ _ _⟩ rfl

private theorem provider_of_malformed {σ : SetOrder B256} (engine : ConsensusEngine X)
    {payload : ExecutionData} (tx : ℕ) {error : PayloadError}
    (malformed : X.ensureWellFormedPayload payload = .error error) :
    (engine.onEngineMessage σ (.newPayload payload tx)).tree.provider = engine.tree.provider := by
  obtain ⟨latestValidHash, tree', peeks, heq⟩ := onNewPayload_malformed σ
    { engine.tree with
      blockBuffer := (engine.tree.blockBuffer.removeProof payload.blockHash).2 }
    (engine.tree.blockBuffer.removeProof payload.blockHash).1 malformed
  match onEngineMessage_newPayload σ engine payload tx with
  | .parked handled _ event _ _ _ =>
      cases heq.symm.trans handled
      cases event
  | .answered handled tree _ _ =>
      cases heq.symm.trans handled
      rw [tree]
      exact peeks.provider

/-- A hash that is stored already unlocks nothing. -/
private theorem ConsensusEngine.Unlocks.of_contains {σ : SetOrder B256}
    {engine engine' : ConsensusEngine X} {hash : B256} (h : Unlocks σ engine hash engine')
    (hstored : engine.tree.provider.Contains hash) :
    engine'.tree.canonicalHead = engine.tree.canonicalHead ∧
      engine'.tree.provider = engine.tree.provider := by
  cases h with
  | locked _ same => exact same ▸ ⟨rfl, rfl⟩
  | @handled block proof _ _ ready call tree _ =>
      rw [← BlockBuffer.hash_of_get ready.1] at hstored
      have hseen : (takeOut engine.tree hash block).provider.Contains block.hash := hstored
      obtain ⟨status, tree', heq, hidle, hprovider⟩ := onDownloadedBlock_of_contains σ hseen proof
      cases heq.symm.trans call
      rw [tree]
      exact ⟨hidle.head, hprovider⟩

/-- **Nothing else inserts a block**, but the download of a finalized block; that becomes
the head at once. -/
theorem handsOver_of_inserted {engine engine' : ConsensusEngine X} {event : Processed X.Proof}
    {target : B256} (step : Step engine event engine') (hfed : FedBy feed engine.tree.blockBuffer)
    (hfresh : ¬engine.tree.provider.Contains target)
    (hstored : engine'.tree.provider.Contains target) :
    (∃ σ called block result, HandsOver σ engine event called block result engine') ∨
      ∃ block ancestors, event = .outcome (.finalizedBlock block ancestors) ∧ block.hash = target ∧
        engine'.tree.canonicalHead.hash = target := by
  match step with
  | .timeout _ _ => exact absurd hstored hfresh
  | .message σ (.forkchoiceUpdated state payloadAttrs tx version) _ =>
      match onEngineMessage_forkchoiceUpdated σ engine state payloadAttrs tx version with
      | .answered handled tree _ _ =>
          have hupdates := onForkchoiceUpdated_cases σ engine.tree state payloadAttrs version
          rw [handled] at hupdates
          rw [tree, contains_carryOut, track_provider] at hstored
          exact absurd ((hupdates.sub hfed).1 _ hstored) hfresh
  | .message σ (.newPayload payload tx) unparked =>
      match hformed : X.ensureWellFormedPayload payload with
      | .ok block => exact .inl ⟨σ, _, block, _, .payload unparked hformed⟩
      | .error error =>
          rw [provider_of_malformed engine tx hformed] at hstored
          exact absurd hstored hfresh
  | .outcome σ data handled =>
      rcases onDownloadOutcome_stores handled with ⟨-, -, -, hsame⟩ | ⟨recovered, unlocks⟩
      · rw [hsame] at hstored
        exact absurd hstored hfresh
      · match data with
        | .finalizedBlock finalized ancestors =>
            obtain ⟨hhead, hprovider⟩ := unlocks.of_contains
              (contains_insertFinalized.mpr (.inl rfl))
            rw [hprovider] at hstored
            have htarget := (contains_insertFinalized.mp hstored).resolve_right hfresh
            refine .inr ⟨finalized, ancestors, rfl, htarget.symm, ?_⟩
            rw [hhead]
            exact htarget.symm
        | .fullBlock _ | .proof _ _ =>
            match unlocks with
            | .locked _ hsame =>
                rw [hsame] at hstored
                exact absurd hstored hfresh
            | .handled ready _ _ _ =>
                exact .inl ⟨σ, _, _, _, .download nofun recovered ready handled⟩

/-- **A sync target that comes into the provider is installed** exactly if the branches are
stored in time, and what they share was mapped. -/
theorem syncTarget_installed_iff (hgenesis : feed.IsGenesis genesis) (hlinked : feed.Linked)
    (hverifies : X.VerifiesNumber) (htracker : X.forkchoiceStateTracker.Lawful)
    (htracks : X.TracksSyncing) {target : B256} {engine engine' : ConsensusEngine X}
    (hsyncs : SyncsTo feed genesis target engine) {event : Processed X.Proof}
    (hprovided : feed.Provides event) (hstep : Step engine event engine')
    (hfresh : ¬engine.tree.provider.Contains target)
    (hstored : engine'.tree.provider.Contains target) :
    ((∃ σ called block result, HandsOver σ engine event called block result engine') ∨
      ∃ block ancestors, event = .outcome (.finalizedBlock block ancestors) ∧ block.hash = target ∧
        engine'.tree.canonicalHead.hash = target) ∧
    ∀ σ called block outcome, HandsOver σ engine event called block (.ok outcome) engine' →
      ∀ new old ancestor,
        engine'.tree.provider.Branches target engine.tree.canonicalHead.hash new old ancestor →
          (Installed engine'.tree target new ↔
            InTime σ called block target new old ∧ SharedMapped engine.tree target new old) := by
  obtain ⟨⟨trace, run⟩, htargets⟩ := hsyncs.targets htracker htracks
  obtain ⟨hhead, hfed⟩ := HeadGrounded.of_run hgenesis hlinked hverifies run
  refine ⟨handsOver_of_inserted hstep hfed hfresh hstored,
    fun σ called block outcome hhands new old ancestor hbranches => ?_⟩
  obtain ⟨hhead', -⟩ := HeadGrounded.of_run hgenesis hlinked hverifies
    (.step run hprovided hhands.step)
  have hwellFormed := hhands.wellFormed hfed hprovided
  obtain ⟨⟨check, maybeProof, tree', hhandles, hfinal⟩, hcalled⟩ := hhands.handles
  have hgrounded := hhead'.grounded
  have hatHeight := hhead.atHeight hgenesis hgrounded
  -- but for its buffer the tree is the one before the event
  generalize called.blockBuffer = buffer at hcalled
  subst hcalled
  rw [hfinal] at hstored hbranches hgrounded hatHeight ⊢
  exact (hhandles.takesTurn htargets hfresh hstored).installed_iff hwellFormed
    (hgrounded.leveled hgenesis) hatHeight hbranches

namespace SmallWorld

/-- Block 3 is the sync target, and waits with its proof for block 2. -/
def targetWaits : List (Processed externals.Proof) :=
  [.outcome (.fullBlock (block 3 2 2)), .outcome (.proof 3 true),
    .outcome (.fullBlock (block 2 1 1))]

/-- The state in which block 3 is announced as the head. -/
def targetAnnounced : ConsensusEngine externals :=
  (launch externals (block 1 0 0)).onEngineMessage ascending
    (.forkchoiceUpdated ⟨3, 1, 1⟩ none 0 3)

/-- With block 2 the target is installed. -/
theorem waiting_target_installed :
    ∃ engine engine', SyncsTo forkFeed (block 1 0 0) 3 engine ∧
      Step engine (.outcome (.proof 2 true)) engine' ∧
      Installed engine'.tree 3 [header 3 2 2, header 2 1 1] := by
  have hanswer : (onForkchoiceUpdated ascending (launch externals (block 1 0 0)).tree ⟨3, 1, 1⟩ none
      3).1.toOption.map TreeOutcome.outcome = some (.valid ⟨.syncing, none⟩) := by decide +kernel
  have hannounced : SyncsTo forkFeed (block 1 0 0) 3 targetAnnounced :=
    SyncsTo.of_update 0 .start rfl (Set.mem_univ _) hanswer
  have hends : (replay ascending targetWaits targetAnnounced).any (fun engine =>
        let tree := takeOut (store engine.tree (.proof 2 true)) 2 (block 2 1 1)
        let provider := (engine.onDownloadOutcome ascending (.proof 2 true)).2.tree.provider
        decide (engine.tree.blockBuffer.blocks.get 2 = some (block 2 1 1) ∧
          ¬engine.tree.provider.Contains 3 ∧ engine.tree.canonicalHead.hash = 1 ∧
          (onDownloadedBlock ascending tree (block 2 1 1) true).1.toOption.isSome = true ∧
          provider.sealedHeader 3 = some (header 3 2 2) ∧
          provider.sealedHeader 2 = some (header 2 1 1))) = true := by
    decide +kernel
  obtain ⟨engine, hreplay, hstate⟩ := (Option.any_eq_true _ _).mp hends
  obtain ⟨hbuffered, hfresh, hhead, hsome, htop, hbelow⟩ := of_decide_eq_true hstate
  have hsyncs : SyncsTo forkFeed (block 1 0 0) 3 engine := by
    refine .of_replay (fun event hmem => ?_) hannounced hreplay
    have hprovides : ∀ event ∈ targetWaits, forkFeed.Provides event := by decide +kernel
    refine ⟨hprovides event hmem, ?_⟩
    rintro state payloadAttrs tx version rfl
    simp [targetWaits] at hmem
  have hhands := HandsOver.of_proof ascending hbuffered true
  clear hstate hends hreplay hannounced
  generalize onDownloadedBlock ascending
    (takeOut (store engine.tree (.proof 2 true)) 2 (block 2 1 1)) (block 2 1 1) true = answer at *
  generalize (engine.onDownloadOutcome ascending (.proof 2 true)).2 = engine' at *
  match answer, hsome with
  | (.ok outcome, _), _ =>
      have hcontains : engine'.tree.provider.Contains 3 :=
        ChainState.contains_iff_sealedHeader.mpr ⟨_, htop⟩
      have hbranches : engine'.tree.provider.Branches 3 engine.tree.canonicalHead.hash
          [header 3 2 2, header 2 1 1] [] 1 := by
        rw [hhead]
        exact ⟨.cons htop (.cons hbelow (.nil _)), .nil _⟩
      refine ⟨engine, engine', hsyncs, hhands.step, ((syncTarget_installed_iff fork_isGenesis
        feed_linked verifiesNumber tracker_lawful tracksSyncing hsyncs (Set.mem_univ _) hhands.step
        hfresh hcontains).2 _ _ _ _ hhands _ _ _ hbranches).mpr ⟨fun _ => ?_, nofun⟩⟩
      refine ⟨[header 3 2 2, header 2 1 1], [], [], rfl, rfl, ?_⟩
      rintro top (_ | ⟨_, _ | ⟨_, ⟨⟩⟩⟩)
      · exact .inr (.inr (.inl rfl))
      · exact .inr (.inl rfl)

/-- Blocks 3 and 4 stand on block 2, and block 5 stands on block 4. -/
def cousinHeaders : List SealedHeader :=
  [header 1 0 0, header 2 1 1, header 3 2 2, header 4 2 2, header 5 4 3]

/-- Block 5 is announced as finalized, and downloaded. -/
def finalizedFirst : List (Processed externals.Proof) :=
  [.message (.forkchoiceUpdated ⟨5, 5, 5⟩ none 0 3),
    .outcome (.finalizedBlock (block 5 4 3) [header 4 2 2, header 2 1 1, header 1 0 0])]

/-- The payloads of blocks 4 and 3 arrive, then their proofs, and block 2 is downloaded. -/
def cousinsWait : List (Processed externals.Proof) :=
  [.message (.newPayload (payload (block 4 2 2)) 2),
    .message (.newPayload (payload (block 3 2 2)) 3),
    .outcome (.proof 4 true), .outcome (.proof 3 true), .outcome (.fullBlock (block 2 1 1))]

/-- **A sync target is missed**: with the proof of block 2, blocks 3 and 4 are connected, in
this order.  Block 3 is the sync target, and in the end the chains 3 and 5, 4 meet at
block 2, but block 5 is still the head. -/
theorem late_branch_misses_target :
    ∃ engine engine' called outcome, SyncsTo (feedOf cousinHeaders) (block 1 0 0) 3 engine ∧
      HandsOver ascending engine (.outcome (.proof 2 true)) called (block 2 1 1) (.ok outcome)
        engine' ∧
      ¬engine.tree.provider.Contains 3 ∧
      engine'.tree.provider.Branches 3 engine.tree.canonicalHead.hash [header 3 2 2]
        [header 5 4 3, header 4 2 2] 2 ∧
      ¬Installed engine'.tree 3 [header 3 2 2] := by
  have hfinalized : (replay ascending finalizedFirst (launch externals (block 1 0 0))).any
      (fun engine =>
        let answer := onForkchoiceUpdated ascending engine.tree ⟨3, 1, 1⟩ none 3
        let announced := engine.onEngineMessage ascending (.forkchoiceUpdated ⟨3, 1, 1⟩ none 1 3)
        decide (engine.parkedPayload = none ∧
          answer.1.toOption.map TreeOutcome.outcome = some (.valid ⟨.syncing, none⟩)) &&
        (replay ascending cousinsWait announced).any fun engine =>
          let tree := takeOut (store engine.tree (.proof 2 true)) 2 (block 2 1 1)
          let after := (engine.onDownloadOutcome ascending (.proof 2 true)).2.tree
          decide (engine.tree.blockBuffer.blocks.get 2 = some (block 2 1 1) ∧
            ¬engine.tree.provider.Contains 3 ∧ engine.tree.canonicalHead.hash = 5 ∧
            (onDownloadedBlock ascending tree (block 2 1 1) true).1.toOption.isSome = true ∧
            after.provider.sealedHeader 3 = some (header 3 2 2) ∧
            after.provider.sealedHeader 5 = some (header 5 4 3) ∧
            after.provider.sealedHeader 4 = some (header 4 2 2) ∧
            after.canonicalHead.hash = 5)) = true := by
    decide +kernel
  obtain ⟨start, hstart, hanswered⟩ := (Option.any_eq_true _ _).mp hfinalized
  rw [Bool.and_eq_true, Option.any_eq_true] at hanswered
  obtain ⟨hanswer, engine, hreplay, hstate⟩ := hanswered
  obtain ⟨hunparked, hanswer⟩ := of_decide_eq_true hanswer
  obtain ⟨hbuffered, hfresh, hhead, hsome, htarget, htop, hbelow, hkept⟩ := of_decide_eq_true hstate
  have hprovides : ∀ event ∈ finalizedFirst ++ cousinsWait,
      (feedOf cousinHeaders).Provides event := by decide +kernel
  have hannounced := SyncsTo.of_update 1
    (.of_replay (fun _ event hmem => hprovides event (List.mem_append_left _ hmem)) hstart)
    hunparked (Set.mem_univ _) hanswer
  have hsyncs : SyncsTo (feedOf cousinHeaders) (block 1 0 0) 3 engine := by
    refine .of_replay (fun event hmem => ⟨hprovides event (List.mem_append_right _ hmem), ?_⟩)
      hannounced hreplay
    rintro state payloadAttrs tx version rfl
    simp [cousinsWait] at hmem
  have hhands := HandsOver.of_proof ascending hbuffered true
  clear hstate hanswer hfinalized hreplay hannounced
  generalize onDownloadedBlock ascending
    (takeOut (store engine.tree (.proof 2 true)) 2 (block 2 1 1)) (block 2 1 1) true = answer at *
  generalize (engine.onDownloadOutcome ascending (.proof 2 true)).2 = engine' at *
  match answer, hsome with
  | (.ok outcome, _), _ =>
      refine ⟨engine, engine', _, outcome, hsyncs, hhands, hfresh, ?_, fun hinstalled => ?_⟩
      · rw [hhead]
        exact ⟨.cons htarget (.nil _), .cons htop (.cons hbelow (.nil _))⟩
      · have hhead' := hinstalled.head
        rw [hkept] at hhead'
        cases hhead'

end SmallWorld

end ZkRess
