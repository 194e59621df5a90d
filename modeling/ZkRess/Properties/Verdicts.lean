import ZkRess.Engine.EngineCases
import ZkRess.Engine.SmallWorld

/-!
# One verdict for each block

Whether a block is kept apart from the blocks remembered as invalid, and answered
with one verdict, over whole runs with proofs from anywhere.

A block is rejected on the proof it came with: an incomplete proof leads to
another state root, that is a consensus error, and the block goes into the cache
of invalid headers, from where it condemns its descendants.  Another proof may
later be accepted for the same block (`other_proof_other_verdict`).

Verdicts are unique when the delivered proofs agree about each block.  Then what
is remembered as invalid is a rejected block or descends from one (`Bad`), and
what is stored is neither: the parent of a verified block is stored already.
-/

namespace ZkRess

open Foundation ConsensusEngine

variable {X : Externals} {feed : Feed X}

/-! ## Proofs that agree -/

namespace Feed

/-- The deliveries can take a launched node to this tree. -/
def Reaches (feed : Feed X) (genesis : Block) (tree : EngineTree X) : Prop :=
  ∃ marks, History feed (launch X genesis).tree marks tree

/-- In a tree that can be reached, a delivered block with this hash is rejected. -/
def Rejected (feed : Feed X) (genesis : Block) (hash : B256) : Prop :=
  ∃ tree block, feed.Reaches genesis tree ∧ block ∈ feed.blocks ∧ block.hash = hash ∧
    Rejects feed tree.provider block

/-- In a tree that can be reached, a delivered block with this hash is accepted
with a delivered proof. -/
def Accepted (feed : Feed X) (genesis : Block) (hash : B256) : Prop :=
  ∃ (tree : EngineTree X) (block : Block) (parent : SealedHeader) (proof : X.Proof),
    feed.Reaches genesis tree ∧ block ∈ feed.blocks ∧ block.hash = hash ∧
      proof ∈ feed.proofs hash ∧ EngineTree.validateBlock X block = .ok () ∧
        tree.provider.sealedHeader block.parentHash = some parent ∧
          X.verify tree.provider block parent proof = .ok ()

/-- The hash, or one below it, is rejected. -/
def Bad (feed : Feed X) (genesis : Block) (hash : B256) : Prop :=
  ∃ rejected, feed.Descends hash rejected ∧ feed.Rejected genesis rejected

/-- **The deliveries agree**: no block is both accepted and rejected, and neither
the genesis block nor a finalized block is, or descends from, a rejected one. -/
structure Unanimous (feed : Feed X) (genesis : Block) : Prop where
  proofs : ∀ hash, feed.Accepted genesis hash → ¬feed.Rejected genesis hash
  launched : ¬feed.Bad genesis genesis.hash
  finalized : ∀ pair ∈ feed.finalized, ¬feed.Bad genesis pair.1.hash

theorem Bad.of_descends {genesis : Block} {head check : B256} (h : feed.Descends head check)
    (hbad : feed.Bad genesis check) : feed.Bad genesis head := by
  obtain ⟨rejected, hdescends, hrejected⟩ := hbad
  exact ⟨rejected, h.trans hdescends, hrejected⟩

theorem Rejected.bad {genesis : Block} {hash : B256} (h : feed.Rejected genesis hash) :
    feed.Bad genesis hash :=
  ⟨hash, .refl feed hash, h⟩

/-- A block that is bad is rejected itself, or its parent is bad. -/
theorem Bad.cases {genesis block : Block} (hblock : block ∈ feed.blocks)
    (hbad : feed.Bad genesis block.hash) :
    feed.Rejected genesis block.hash ∨ feed.Bad genesis block.parentHash := by
  obtain ⟨rejected, ⟨headers, hpath⟩, hrejected⟩ := hbad
  cases hpath with
  | nil => exact .inl hrejected
  | @cons _ _ header headers found rest =>
      have hconf : feed.preimage block.hash = some block.toSealedHeader :=
        feed.blocks_conform block hblock
      rw [hconf] at found
      cases found
      exact .inr ⟨rejected, ⟨headers, rest⟩, hrejected⟩

end Feed

/-! ## The invariant -/

/-- **Apart**: what is remembered as invalid is bad, and what is stored is not. -/
structure Apart (feed : Feed X) (genesis : Block) (tree : EngineTree X) : Prop where
  reached : feed.Reaches genesis tree
  stocked : Stocked feed tree.provider
  cached : ∀ hash, X.invalidHeaderCache.Cached tree.invalidHeaders hash → feed.Bad genesis hash
  stored : ∀ hash, tree.provider.Contains hash → ¬feed.Bad genesis hash
  head : ¬feed.Bad genesis tree.canonicalHead.hash

namespace Apart

variable {genesis : Block} {tree tree' : EngineTree X}

/-- A cache that grows by at most a bad hash. -/
private theorem cached_of_grows (h : Apart feed genesis tree)
    (hlawful : X.invalidHeaderCache.Lawful) {added : Option B256}
    (hgrows : CacheGrows tree tree' added)
    (hadded : ∀ hash, added = some hash → feed.Bad genesis hash) (hash : B256)
    (hcached : X.invalidHeaderCache.Cached tree'.invalidHeaders hash) : feed.Bad genesis hash := by
  obtain ⟨entry, hget⟩ := hcached
  rcases hgrows hlawful hash entry hget with hnew | hold
  · exact hadded hash hnew
  · exact h.cached hash ⟨entry, hold⟩

/-- A block with an accepted proof and a stored parent is not bad. -/
theorem not_bad_of_accepted (h : Apart feed genesis tree) (hagree : feed.Unanimous genesis)
    {block : Block} {parent : SealedHeader} (fed : block ∈ feed.blocks)
    (connected : tree.provider.sealedHeader block.parentHash = some parent)
    (accepted : feed.Accepted genesis block.hash) : ¬feed.Bad genesis block.hash := by
  intro hbad
  rcases hbad.cases fed with hrejected | hparent
  · exact hagree.proofs _ accepted hrejected
  · exact h.stored _ (ChainState.contains_iff_sealedHeader.mpr ⟨parent, connected⟩) hparent

/-- **Every small step keeps them apart.** -/
theorem step (hlawful : X.invalidHeaderCache.Lawful) (hagree : feed.Unanimous genesis)
    {mark : Option Mark} (step : TreeStep feed tree tree' mark) (h : Apart feed genesis tree) :
    Apart feed genesis tree' := by
  have hreached : feed.Reaches genesis tree' := by
    obtain ⟨marks, history⟩ := h.reached
    exact ⟨_, history.step step⟩
  have hstocked := h.stocked.step step
  have hnone : ∀ hash, (none : Option B256) = some hash → feed.Bad genesis hash := nofun
  cases step with
  | quiet provider head cache =>
      exact ⟨hreached, hstocked, h.cached_of_grows hlawful cache hnone, provider ▸ h.stored,
        head ▸ h.head⟩
  | @condemn block fed _ reason provider head cache =>
      refine ⟨hreached, hstocked, h.cached_of_grows hlawful cache ?_, provider ▸ h.stored,
        head ▸ h.head⟩
      rintro _ ⟨⟩
      have hrejected : feed.Rejected genesis block.hash :=
        ⟨tree, block, h.reached, fed, rfl, reason⟩
      exact hrejected.bad
  | @inherit block check fed descends known provider head cache =>
      refine ⟨hreached, hstocked, h.cached_of_grows hlawful cache ?_, provider ▸ h.stored,
        head ▸ h.head⟩
      rintro _ ⟨⟩
      exact .of_descends descends (h.cached check (known hlawful))
  | @verify block parent proof fed proofFed fresh valid connected passed provider head cache =>
      refine ⟨hreached, hstocked, h.cached_of_grows hlawful cache hnone, fun hash hstored => ?_,
        head ▸ h.head⟩
      rw [provider] at hstored
      rcases ChainState.contains_insertBlock.mp hstored with rfl | hold
      · exact h.not_bad_of_accepted hagree fed connected
          ⟨tree, block, parent, proof, h.reached, fed, rfl, proofFed, valid, connected, passed⟩
      · exact h.stored hash hold
  | @advance target update found provider head cache =>
      have hsame := ChainState.onChainUpdate_sameBlocks tree.provider update.new.headers update.old
      refine ⟨hreached, hstocked, h.cached_of_grows hlawful cache hnone, fun hash hstored => ?_, ?_⟩
      · rw [provider] at hstored
        unfold ChainState.Contains at hstored
        rw [hsame.blocksByHash] at hstored
        exact h.stored hash hstored
      · have htip := EngineTree.onNewHead_tip found
        have hhash : update.tip.hash = target := ChainState.hash_of_sealedHeader htip
        rw [head]
        show ¬feed.Bad genesis update.tip.hash
        rw [hhash]
        exact h.stored target (ChainState.contains_iff_sealedHeader.mpr ⟨_, htip⟩)
  | prune _ stored _ provider head cache =>
      refine ⟨hreached, hstocked, h.cached_of_grows hlawful cache hnone, fun hash hstored => ?_,
        head ▸ h.head⟩
      obtain ⟨block, hget⟩ := hstored
      rw [provider] at hget
      exact h.stored hash
        ⟨block, ((ChainState.removeBlocksOnFinalized_get h.stocked.indexed stored).mp hget).1⟩

/-- Nothing but the buffer and the tracker changed. -/
theorem of_quiet (h : Apart feed genesis tree) (hlawful : X.invalidHeaderCache.Lawful)
    (hagree : feed.Unanimous genesis) (provider : tree'.provider = tree.provider)
    (head : tree'.canonicalHead = tree.canonicalHead)
    (cache : tree'.invalidHeaders = tree.invalidHeaders) : Apart feed genesis tree' := by
  refine h.step hlawful hagree (.quiet provider head fun _ hash entry hget => .inr ?_)
  rwa [cache] at hget

theorem insertFinalized (h : Apart feed genesis tree) (hagree : feed.Unanimous genesis)
    {block : Block} {ancestors : List SealedHeader} (fed : (block, ancestors) ∈ feed.finalized) :
    Apart feed genesis (ConsensusEngine.insertFinalized tree block ancestors) where
  reached := by
    obtain ⟨marks, history⟩ := h.reached
    exact ⟨_, history.finalized block ancestors fed⟩
  stocked := h.stocked.insertFinalized fed
  cached := h.cached
  stored hash hstored := by
    obtain ⟨block', hget⟩ := hstored
    rw [insertFinalized_get] at hget
    split at hget
    · next heq =>
        rw [heq]
        exact hagree.finalized _ fed
    · exact h.stored hash ⟨block', hget⟩
  head := hagree.finalized _ fed

theorem launch (hlawful : X.invalidHeaderCache.Lawful) (hagree : feed.Unanimous genesis)
    (hconf : genesis.toSealedHeader.Conforms feed.preimage) :
    Apart feed genesis (ConsensusEngine.launch X genesis).tree where
  reached := ⟨[], .start⟩
  stocked := .launch hconf
  cached hash hcached := by
    obtain ⟨entry, hget⟩ := hcached
    cases (hlawful.new_empty hash).symm.trans hget
  stored hash hstored := by
    obtain ⟨block, hget⟩ := hstored
    rw [launch_get] at hget
    split at hget
    · next heq =>
        rw [heq]
        exact hagree.launched
    · cases hget
  head := hagree.launched

theorem of_history (hlawful : X.invalidHeaderCache.Lawful) (hagree : feed.Unanimous genesis)
    (hconf : genesis.toSealedHeader.Conforms feed.preimage) {marks : List Mark}
    (history : History feed (ConsensusEngine.launch X genesis).tree marks tree) :
    Apart feed genesis tree := by
  induction history with
  | start => exact .launch hlawful hagree hconf
  | step _ step ih => exact ih.step hlawful hagree step
  | finalized _ _ _ fed ih => exact ih.insertFinalized hagree fed

/-- The deliveries of the trace take a run to trees that are kept apart. -/
theorem of_run (hlawful : X.invalidHeaderCache.Lawful) (hagree : feed.Unanimous genesis)
    (hconf : genesis.toSealedHeader.Conforms feed.preimage) {trace : List (Processed X.Proof)}
    {engine : ConsensusEngine X}
    (run : FedRun feed (ConsensusEngine.launch X genesis) trace engine) :
    Apart feed genesis engine.tree ∧ FedBy feed engine.tree.blockBuffer := by
  obtain ⟨⟨marks, history⟩, hfed⟩ := Run.history (fun _ _ met => met) run (.new _)
  exact ⟨.of_history hlawful hagree hconf history, hfed⟩

/-- What is stored is not remembered as invalid. -/
theorem not_cached (h : Apart feed genesis tree) {hash : B256}
    (hstored : tree.provider.Contains hash) :
    ¬X.invalidHeaderCache.Cached tree.invalidHeaders hash :=
  fun hcached => h.stored hash hstored (h.cached hash hcached)

end Apart

/-! ## Verdicts -/

/-- **Answers about a block** between the two states of an event: to a well-formed
payload with its hash, to the payload parked for it, or to a fork-choice update
with it as head. -/
inductive AnswersBlock (engine : ConsensusEngine X) (event : Processed X.Proof)
    (engine' : ConsensusEngine X) (hash : B256) (status : PayloadStatus) : Prop
  | payload {payload tx block sent} (isPayload : event = .message (.newPayload payload tx))
      (formed : X.ensureWellFormedPayload payload = .ok block) (hash_eq : block.hash = hash)
      (responses : engine'.responses = engine.responses ++ sent)
      (answer : .payload tx (.ok status) ∈ sent)
  | parked {data parked sent} (isOutcome : event = .outcome data)
      (isParked : engine.parkedPayload = some parked)
      (hash_eq : parked.blockHash = hash) (responses : engine'.responses = engine.responses ++ sent)
      (answer : .payload parked.tx (.ok status) ∈ sent)
  | head {state payloadAttrs tx version updated sent}
      (isUpdate : event = .message (.forkchoiceUpdated state payloadAttrs tx version))
      (hash_eq : state.headBlockHash = hash)
      (responses : engine'.responses = engine.responses ++ sent)
      (answer : .forkchoice tx (.ok updated) ∈ sent)
      (status_eq : updated = .valid status ∨ updated = .withInvalid status)

/-- The block is answered with this status at some event of the trace. -/
def AnsweredIn (start : ConsensusEngine X) (trace : List (Processed X.Proof)) (hash : B256)
    (status : PayloadStatus) : Prop :=
  ∃ before event after engine₁ engine₂, trace = before ++ event :: after ∧
    Run Any start before engine₁ ∧ Step engine₁ event engine₂ ∧
      AnswersBlock engine₁ event engine₂ hash status

/-- What a status says about a block: `Valid` that it is not bad, `Invalid` that
it is. -/
structure Tells (feed : Feed X) (genesis : Block) (hash : B256) (status : PayloadStatus) :
    Prop where
  valid : status.status = .valid → ¬feed.Bad genesis hash
  invalid : ∀ message, status.status = .invalid message → feed.Bad genesis hash

namespace Tells

variable {genesis : Block} {tree tree' : EngineTree X}

/-- `Syncing` says nothing. -/
theorem syncing {hash : B256} {latest : Option B256} : Tells feed genesis hash ⟨.syncing, latest⟩ :=
  ⟨nofun, nofun⟩

/-- **The handlers tell the truth**: a block is called invalid when its checked
ancestor is remembered or the block is rejected, and valid when it is stored. -/
theorem of_handles (hlawful : X.invalidHeaderCache.Lawful) (h : Apart feed genesis tree)
    (hstored : ∀ hash, tree'.provider.Contains hash → ¬feed.Bad genesis hash) {σ : SetOrder B256}
    {check : B256} {block : Block} {maybeProof : Option X.Proof} (hblock : block ∈ feed.blocks)
    (hdescends : feed.Descends block.hash check)
    (hproof : ∀ proof, maybeProof = some proof → proof ∈ feed.proofs block.hash)
    {outcome : TreeOutcome PayloadStatus}
    (handles : EngineTree.Handles σ tree check block maybeProof (.ok outcome) tree') :
    Tells feed genesis block.hash outcome.outcome where
  valid hvalid := hstored _ (handles.valid hvalid).2
  invalid message hinvalid := by
    cases handles with
    | invalidAncestor checks =>
        cases checks with
        | @invalid _ entry _ _ _ found =>
            exact .of_descends hdescends (h.cached check ⟨entry, hlawful.get_sound _ _ _ found⟩)
    | failed checks inserts fails =>
        obtain ⟨rfl, -, hreason⟩ := inserts.reason hproof
        cases checks with
        | clear peeks =>
            rw [peeks.provider] at hreason
            cases fails with
            | invalid isValidation =>
                have hrejected : feed.Rejected genesis block.hash :=
                  ⟨tree, block, h.reached, hblock, rfl, hreason _ isValidation⟩
                exact hrejected.bad
    | connected => cases hinvalid
    | seen => cases hinvalid
    | disconnected => cases hinvalid
    | noProof => cases hinvalid

/-- **Fork-choice updates tell the truth.** -/
theorem of_updates (hlawful : X.invalidHeaderCache.Lawful) (h : Apart feed genesis tree)
    (hfed : FedBy feed tree.blockBuffer) {σ : SetOrder B256} {state : ForkchoiceState}
    {outcome : TreeOutcome OnForkChoiceUpdated} {status : PayloadStatus}
    (updates : EngineTree.Updates σ tree state (.ok outcome) tree')
    (hstatus : outcome.outcome = .valid status ∨ outcome.outcome = .withInvalid status) :
    Tells feed genesis state.headBlockHash status := by
  have hvalid : outcome = .new (EngineTree.validHead state) →
      ¬feed.Bad genesis state.headBlockHash → Tells feed genesis state.headBlockHash status := by
    rintro rfl hnot
    rcases hstatus with hvalid | hinvalid
    · cases hvalid
      exact ⟨fun _ => hnot, nofun⟩
    · cases hinvalid
  have hother : outcome.outcome ≠ .invalidState ∧ outcome.outcome ≠ .invalidPayloadAttributes := by
    rcases hstatus with heq | heq <;> rw [heq] <;> exact ⟨nofun, nofun⟩
  cases updates with
  | refused peeks answer =>
      rcases answer with rfl | ⟨status', message, entry, rfl, hmessage, hfound⟩
      · exact absurd rfl hother.1
      · have hbad : feed.Bad genesis state.headBlockHash :=
          .of_descends (EngineTree.descends_lowestBufferedAncestorOr hfed _)
            (h.cached _ ⟨entry, hlawful.get_sound _ _ _ hfound⟩)
        rcases hstatus with hvalid | hinvalid
        · cases hvalid
        · cases hinvalid
          exact ⟨fun hvalid => (by cases hmessage.symm.trans hvalid), fun _ _ => hbad⟩
  | atHead peeks isHead answer =>
      cases answer with
      | inconsistent => exact absurd rfl hother.1
      | invalidAttributes => exact absurd rfl hother.2
      | valid =>
          have hhead := h.head
          rw [← peeks.canonicalHead, isHead] at hhead
          exact hvalid rfl hhead
  | inconsistent => exact absurd rfl hother.1
  | applied peeks _ found _ answer =>
      rcases answer with heq | heq
      · have hcontains := ChainState.contains_iff_sealedHeader.mpr
          ⟨_, EngineTree.onNewHead_tip found⟩
        rw [peeks.provider] at hcontains
        exact hvalid (by cases heq; rfl) (h.stored _ hcontains)
      · cases heq
        exact absurd rfl hother.2
  | known peeks _ _ stored =>
      have hcontains := ChainState.contains_iff_sealedHeader.mpr ⟨_, stored⟩
      rw [peeks.provider] at hcontains
      exact hvalid rfl (h.stored _ hcontains)
  | syncing =>
      rcases hstatus with heq | heq <;> cases heq
      exact syncing

end Tells

/-- The tree after the data of a download outcome are stored. -/
theorem Apart.store {genesis : Block} {tree : EngineTree X} (h : Apart feed genesis tree)
    (hlawful : X.invalidHeaderCache.Lawful) (hagree : feed.Unanimous genesis)
    {data : DownloadData X.Proof} (hprovides : feed.Provides (.outcome data)) :
    Apart feed genesis (store tree data) := by
  cases data with
  | finalizedBlock block ancestors => exact h.insertFinalized hagree hprovides
  | fullBlock => exact h.of_quiet hlawful hagree rfl rfl rfl
  | proof => exact h.of_quiet hlawful hagree rfl rfl rfl

section Events

variable {genesis : Block} {engine engine' : ConsensusEngine X} {σ : SetOrder B256}

private theorem sent_unique {responses responses' sent sent' : List Response}
    (h : responses' = responses ++ sent) (h' : responses' = responses ++ sent') : sent = sent' :=
  List.append_cancel_left (h.symm.trans h')

/-- The answer to a new payload tells the truth. -/
private theorem ConsensusEngine.Receives.tells (hlawful : X.invalidHeaderCache.Lawful)
    (hagree : feed.Unanimous genesis) {payload : ExecutionData} {tx : ℕ}
    (h : Receives σ engine payload tx engine')
    (hprovides : feed.Provides (.message (.newPayload payload tx)))
    (hapart : Apart feed genesis engine.tree) (hapart' : Apart feed genesis engine'.tree)
    (hfed : FedBy feed engine.tree.blockBuffer) {block : Block}
    (hformed : X.ensureWellFormedPayload payload = .ok block) {sent : List Response}
    (hsent : engine'.responses = engine.responses ++ sent) {status : PayloadStatus}
    (hmem : .payload tx (.ok status) ∈ sent) : Tells feed genesis block.hash status := by
  obtain ⟨hblock, hhash⟩ := hprovides block hformed
  cases h with
  | parked _ _ _ _ _ responses =>
      rw [responses, List.self_eq_append_right] at hsent
      rw [hsent] at hmem
      cases hmem
  | @answered result tree' handled tree _ responses =>
      rw [sent_unique hsent responses] at hmem
      cases result with
      | error => cases List.mem_singleton.mp hmem
      | ok outcome =>
          cases List.mem_singleton.mp hmem
          have hcall : Apart feed genesis { engine.tree with
              blockBuffer := (engine.tree.blockBuffer.removeProof payload.blockHash).2 } :=
            hapart.of_quiet hlawful hagree rfl rfl rfl
          have hhandles := EngineTree.onNewPayload_cases σ
            { engine.tree with
              blockBuffer := (engine.tree.blockBuffer.removeProof payload.blockHash).2 }
            (engine.tree.blockBuffer.removeProof payload.blockHash).1 hformed
          replace handled : EngineTree.onNewPayload σ _ payload _ = (.ok outcome, tree') := handled
          rw [handled] at hhandles
          refine .of_handles hlawful hcall (fun hash hstored => hapart'.stored hash ?_) hblock
            (EngineTree.descends_payloadCheck (hfed.removeProof payload.blockHash) hblock)
            (fun proof hproof => ?_) hhandles
          · rw [tree]
            exact EngineTree.contains_carryOut.mpr hstored
          · rw [hhash]
            exact hfed.removeProof_fed hproof

/-- The answer to a parked payload tells the truth. -/
private theorem ConsensusEngine.Unlocks.tells (hlawful : X.invalidHeaderCache.Lawful) {hash : B256}
    (hagree : feed.Unanimous genesis) (h : Unlocks σ engine hash engine')
    (hapart : Apart feed genesis engine.tree) (hapart' : Apart feed genesis engine'.tree)
    (hfed : FedExcept feed hash engine.tree.blockBuffer) {parked : ParkedPayload}
    (hparked : engine.parkedPayload = some parked) {sent : List Response}
    (hsent : engine'.responses = engine.responses ++ sent) {status : PayloadStatus}
    (hmem : .payload parked.tx (.ok status) ∈ sent) :
      Tells feed genesis parked.blockHash status := by
  have hnone : ¬engine'.responses = engine.responses := by
    intro hsame
    rw [hsame, List.self_eq_append_right] at hsent
    rw [hsent] at hmem
    cases hmem
  cases h with
  | locked _ same => exact absurd (by rw [same]) hnone
  | @handled block proof result tree' ready handled tree answers =>
      cases answers with
      | unrelated _ _ responses => exact absurd responses hnone
      | @answered parked' wasParked own _ responses =>
          cases hparked.symm.trans wasParked
          rw [sent_unique hsent responses] at hmem
          cases result with
          | error => cases List.mem_singleton.mp hmem
          | ok outcome =>
              cases List.mem_singleton.mp hmem
              have hcall : Apart feed genesis (takeOut engine.tree hash block) :=
                hapart.of_quiet hlawful hagree rfl rfl rfl
              have hhandles :=
                EngineTree.onDownloadedBlock_cases σ (takeOut engine.tree hash block) block proof
              rw [handled] at hhandles
              have hkey := BlockBuffer.hash_of_get ready.1
              have hbuffer : FedBy feed (takeOut engine.tree hash block).blockBuffer :=
                hfed.drop ready
              rw [own, ← hkey]
              refine .of_handles hlawful hcall (fun hash hstored => hapart'.stored hash ?_)
                (hfed.blocks _ _ ready.1)
                (EngineTree.descends_lowestBufferedAncestorOr hbuffer block.hash)
                (fun proof' hproof => ?_) hhandles
              · rw [tree]
                exact EngineTree.contains_carryOut.mpr hstored
              · cases hproof
                rw [hkey]
                exact hfed.proofs _ _ ready.2

/-- The answer to a fork-choice update tells the truth. -/
private theorem ConsensusEngine.Chooses.tells (hlawful : X.invalidHeaderCache.Lawful)
    {state : ForkchoiceState} {payloadAttrs : Option PayloadAttributes} {tx : ℕ} {version : UInt8}
    (h : Chooses σ engine state payloadAttrs tx version engine')
    (hapart : Apart feed genesis engine.tree) (hfed : FedBy feed engine.tree.blockBuffer)
    {sent : List Response} (hsent : engine'.responses = engine.responses ++ sent)
    {updated : OnForkChoiceUpdated} (hmem : .forkchoice tx (.ok updated) ∈ sent)
    {status : PayloadStatus} (hstatus : updated = .valid status ∨ updated = .withInvalid status) :
    Tells feed genesis state.headBlockHash status := by
  cases h with
  | @answered result tree' handled _ _ responses =>
      rw [sent_unique hsent responses] at hmem
      cases result with
      | error => cases List.mem_singleton.mp hmem
      | ok outcome =>
          cases List.mem_singleton.mp hmem
          have hupdates :=
            EngineTree.onForkchoiceUpdated_cases σ engine.tree state payloadAttrs version
          rw [handled] at hupdates
          exact .of_updates hlawful hapart hfed hupdates hstatus

/-- **Every event tells the truth.** -/
theorem ConsensusEngine.Step.tells (hlawful : X.invalidHeaderCache.Lawful)
    (hagree : feed.Unanimous genesis) {event : Processed X.Proof} (step : Step engine event engine')
    (hprovides : feed.Provides event) (hapart : Apart feed genesis engine.tree)
    (hfed : FedBy feed engine.tree.blockBuffer) {hash : B256} {status : PayloadStatus}
    (answers : AnswersBlock engine event engine' hash status) : Tells feed genesis hash status := by
  have hapart' : Apart feed genesis engine'.tree :=
    (step.preserves hprovides (fun _ _ _ step h => h.step hlawful hagree step)
      (fun _ _ heq h => h.insertFinalized hagree (by rwa [heq] at hprovides)) hfed hapart).1
  cases answers with
  | @payload payload tx block sent isPayload formed hash_eq responses answer =>
      subst isPayload hash_eq
      cases step with
      | message σ _ _ =>
          exact (onEngineMessage_newPayload σ engine payload tx).tells hlawful hagree hprovides
            hapart hapart' hfed formed responses answer
  | @parked data parked sent isOutcome isParked hash_eq responses answer =>
      subst isOutcome hash_eq
      cases step with
      | outcome σ _ handled =>
          cases onDownloadOutcome_cases handled with
          | dropped _ same =>
              rw [same, List.self_eq_append_right] at responses
              rw [responses] at answer
              cases answer
          | stored unlocks =>
              exact unlocks.tells hlawful hagree (hapart.store hlawful hagree hprovides) hapart'
                (FedBy.store hfed hprovides) isParked responses answer
  | @head state payloadAttrs tx version updated sent isUpdate hash_eq responses answer hstatus =>
      subst isUpdate hash_eq
      cases step with
      | message σ _ _ =>
          exact (onEngineMessage_forkchoiceUpdated σ engine state payloadAttrs tx version).tells
            hlawful hapart hfed responses answer hstatus

end Events

/-! ## The property of runs -/

/-- **One verdict for each block**, whoever served its proof. -/
structure OneVerdict (feed : Feed X) (genesis : Block) (trace : List (Processed X.Proof))
    (tree : EngineTree X) : Prop where
  /-- No hash is both stored and remembered as invalid. -/
  apart : ∀ hash, tree.provider.Contains hash →
    ¬X.invalidHeaderCache.Cached tree.invalidHeaders hash
  /-- A block accepted with one delivered proof is not remembered as invalid. -/
  accepted : ∀ hash, feed.Accepted genesis hash →
    ¬X.invalidHeaderCache.Cached tree.invalidHeaders hash
  /-- No hash is answered both `Valid` and `Invalid`. -/
  answers : ∀ hash status status' message, AnsweredIn (launch X genesis) trace hash status →
    AnsweredIn (launch X genesis) trace hash status' → status.status = .valid →
      status'.status ≠ .invalid message

/-- An accepted block is not bad. -/
theorem Feed.Unanimous.not_bad_of_accepted {genesis : Block}
    (hlawful : X.invalidHeaderCache.Lawful) (hagree : feed.Unanimous genesis)
    (hconf : genesis.toSealedHeader.Conforms feed.preimage) {hash : B256}
    (haccepted : feed.Accepted genesis hash) : ¬feed.Bad genesis hash := by
  obtain ⟨tree, block, parent, proof, ⟨marks, history⟩, hblock, rfl, hproof, hvalid, hparent,
    hpassed⟩ := haccepted
  exact (Apart.of_history hlawful hagree hconf history).not_bad_of_accepted hagree hblock hparent
    ⟨tree, block, parent, proof, ⟨marks, history⟩, hblock, rfl, hproof, hvalid, hparent, hpassed⟩

/-- Every answer of the trace tells the truth. -/
theorem AnsweredIn.tells {genesis : Block} (hlawful : X.invalidHeaderCache.Lawful)
    (hagree : feed.Unanimous genesis) (hconf : genesis.toSealedHeader.Conforms feed.preimage)
    {trace : List (Processed X.Proof)} (hprovides : ∀ event ∈ trace, feed.Provides event)
    {hash : B256} {status : PayloadStatus} (h : AnsweredIn (launch X genesis) trace hash status) :
    Tells feed genesis hash status := by
  obtain ⟨before, event, after, engine₁, engine₂, rfl, run, step, hanswers⟩ := h
  have hrun : FedRun feed (launch X genesis) before engine₁ :=
    run.mono fun _ event hmem _ => hprovides event (List.mem_append_left _ hmem)
  obtain ⟨hapart, hfed⟩ := Apart.of_run hlawful hagree hconf hrun
  exact step.tells hlawful hagree
    (hprovides event (List.mem_append_right _ List.mem_cons_self)) hapart hfed hanswers

namespace SmallWorld

/-- A payload without its proof; an incomplete proof for it; a payload two blocks
above, whose download leads back to the first block; a complete proof for that;
the first payload again. -/
def secondProof : List (Processed externals.Proof) :=
  [.message (.newPayload (payload (block 2 1 1)) 0), .outcome (.proof 2 false),
    .message (.newPayload (payload (block 4 3 3)) 1), .outcome (.fullBlock (block 3 2 2)),
    .outcome (.proof 3 true), .outcome (.proof 2 true),
    .message (.newPayload (payload (block 2 1 1)) 2)]

/-- In the fork feed every block is numbered one above its parent. -/
theorem fork_number {block : Block} {parent : SealedHeader}
    (hblock : forkFeed.preimage block.hash = some block.toSealedHeader)
    (hparent : forkFeed.preimage block.parentHash = some parent) :
    block.number = parent.number + 1 := by
  have hall : ∀ header ∈ forkHeaders, ∀ parent ∈ forkHeaders, parent.hash = header.parentHash →
      header.number = parent.number + 1 := by decide +kernel
  replace hblock : preimageOf forkHeaders block.hash = some block.toSealedHeader := hblock
  replace hparent : preimageOf forkHeaders block.parentHash = some parent := hparent
  exact hall _ (List.mem_of_find?_eq_some hblock) _ (List.mem_of_find?_eq_some hparent)
    (preimageOf_keyed _ _ _ hparent)

/-- **Complete proofs agree.** -/
theorem unanimous_of_complete {trace : List (Processed externals.Proof)}
    (hcomplete : ∀ hash, .outcome (.proof hash false) ∉ trace) :
    (forkFeed.within trace).Unanimous (block 1 0 0) := by
  have hrejected : ∀ hash, ¬(forkFeed.within trace).Rejected (block 1 0 0) hash := by
    rintro _ ⟨tree, block, ⟨marks, history⟩, hblock, rfl, _, _, _, hreason⟩
    have hconf :
        (SmallWorld.block 1 0 0).toSealedHeader.Conforms (forkFeed.within trace).preimage :=
      fork_isGenesis.conforms
    have hstocked := Stocked.of_history hconf history
    rcases hreason with ⟨error, hmalformed, -⟩ | ⟨parent, proof, error, hproof, hparent, hfailed, -⟩
    · cases hmalformed
    · have hnumber := fork_number hblock.1 (hstocked.preimage_of_sealedHeader hparent)
      cases proof with
      | false => exact hcomplete _ hproof.2
      | true =>
          replace hfailed : SmallWorld.verify tree.provider block parent true = .error error :=
            hfailed
          unfold SmallWorld.verify at hfailed
          rw [if_neg (not_not.mpr hnumber)] at hfailed
          cases hfailed
  have hbad : ∀ hash, ¬(forkFeed.within trace).Bad (block 1 0 0) hash :=
    fun _ ⟨rejected, _, h⟩ => hrejected rejected h
  exact ⟨fun hash _ => hrejected hash, hbad _, fun _ _ => hbad _⟩

end SmallWorld

end ZkRess
