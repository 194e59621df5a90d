import ZkRess.Properties.PendingProofs

/-!
# The buffer keeps only pending data

When nothing is requested any more, the buffer should hold blocks that wait for an
ancestor, with their proofs, and nothing else.  Blocks and proofs are fetched
separately, so in between a proof may be buffered whose block is on its way, and a
block that is stored already while its proof is (`Tidy`).

What arrives is put into the buffer whether it is still needed or not.  A block
whose download was overtaken by a new payload stays there after it has been
validated (`overtaken_download_stays`), and so does a proof whose block is gone.
-/

namespace ZkRess

open Foundation

variable {X : Externals} {feed : Feed X}

namespace ConsensusEngine

/-- Nothing is requested or queued, and no payload is parked. -/
structure Quiescent (engine : ConsensusEngine X) : Prop where
  idle : engine.downloader.Idle
  unparked : engine.parkedPayload = none

/-- **The buffer keeps only pending data**: what is buffered is not stored, and a
buffered proof belongs to a buffered block. -/
structure KeepsPendingOnly (engine : ConsensusEngine X) : Prop where
  blocks : ∀ hash block, engine.tree.blockBuffer.blocks.get hash = some block →
    ¬engine.tree.provider.Contains hash
  proofs : ∀ hash proof, engine.tree.blockBuffer.proofs.get hash = some proof →
    ¬engine.tree.provider.Contains hash
  proofsOfBlocks : ∀ hash proof, engine.tree.blockBuffer.proofs.get hash = some proof →
    ∃ block, engine.tree.blockBuffer.blocks.get hash = some block

/-- A proof is buffered or on its way. -/
def Provable (tree : EngineTree X) (downloader : EngineDownloader X.Proof) (hash : B256) : Prop :=
  (∃ proof, tree.blockBuffer.proofs.get hash = some proof) ∨ downloader.ProofPending hash

/-- A block is buffered or on its way. -/
def Awaited (tree : EngineTree X) (downloader : EngineDownloader X.Proof) (hash : B256) : Prop :=
  (∃ block, tree.blockBuffer.blocks.get hash = some block) ∨ downloader.FullBlockPending hash

/-- **The condition on events**: a proof arrives only for a block that is awaited,
and a buffered block becomes stored, or a stored one buffered, only if a proof
takes it out again. -/
def LeavesNothing (engine : ConsensusEngine X) : Processed X.Proof → Prop
  | .outcome (.proof hash _) => Awaited engine.tree engine.downloader hash
  | .outcome (.fullBlock block) =>
      if X.tryRecover block then engine.tree.provider.Contains block.hash →
        Provable engine.tree engine.downloader block.hash
      else ∀ proof, engine.tree.blockBuffer.proofs.get block.hash = some proof →
        Awaited engine.tree engine.downloader block.hash
  | .outcome (.finalizedBlock finalized _) =>
      ∀ block, engine.tree.blockBuffer.blocks.get finalized.hash = some block →
        Provable engine.tree engine.downloader finalized.hash
  | .message (.newPayload payload _) => ∀ block buffered proof,
      X.ensureWellFormedPayload payload = .ok block →
      engine.tree.blockBuffer.Ready payload.blockHash buffered proof →
      engine.tree.provider.Contains block.parentHash →
      engine.tree.Accepts (engine.tree.payloadCheck block) block proof →
        engine.downloader.ProofPending payload.blockHash
  | _ => True

/-! ## What events preserve -/

/-- The proof of a hash is buffered only if its block is, or is on its way; the
block of a stored one only if its proof is on its way. -/
structure Tidy (tree : EngineTree X) (downloader : EngineDownloader X.Proof) (hash : B256) :
    Prop where
  proofs : ∀ proof, tree.blockBuffer.proofs.get hash = some proof → Awaited tree downloader hash
  blocks : ∀ block, tree.blockBuffer.blocks.get hash = some block →
    tree.provider.Contains hash → downloader.ProofPending hash

section Tidy

variable {tree tree' : EngineTree X} {downloader downloader' : EngineDownloader X.Proof}
  {hash : B256}

theorem Tidy.fate (h : Tidy tree downloader hash) (hfate : tree.Fate tree' hash)
    (hrequests : downloader.Requests downloader') : Tidy tree' downloader' hash := by
  cases hfate with
  | kept blocks proofs stored =>
      refine ⟨fun proof hproof => ?_, fun block hblock hstored => ?_⟩
      · unfold Awaited
        rw [blocks]
        exact (h.proofs proof (proofs ▸ hproof)).imp_right (hrequests.fullBlocks hash)
      · exact hrequests.proofs hash (h.blocks block (blocks ▸ hblock) (stored.mp hstored))
  | left blocks proofs =>
      exact ⟨fun proof hproof => (nomatch proofs.symm.trans hproof),
        fun block hblock => (nomatch blocks.symm.trans hblock)⟩
  | waiting ready _ fresh' =>
      exact ⟨fun _ _ => .inl ⟨_, ready.1⟩, fun _ _ hstored => absurd hstored fresh'⟩

theorem Tidy.weathers (h : Tidy tree downloader hash) (hweathers : tree.Weathers tree' hash)
    (hrequests : downloader.Requests downloader') : Tidy tree' downloader' hash := by
  rcases hweathers.buffer with ⟨blocks, proofs⟩ | ⟨blocks, proofs⟩
  · refine ⟨fun proof hproof => ?_, fun block hblock hstored => ?_⟩
    · unfold Awaited
      rw [blocks]
      exact (h.proofs proof (proofs ▸ hproof)).imp_right (hrequests.fullBlocks hash)
    · exact hrequests.proofs hash (h.blocks block (blocks ▸ hblock) (hweathers.old hstored))
  · exact ⟨fun proof hproof => (nomatch proofs.symm.trans hproof),
      fun block hblock => (nomatch blocks.symm.trans hblock)⟩

/-- When nothing is on its way, what is tidy is pending only. -/
theorem keepsPendingOnly_of_tidy {engine : ConsensusEngine X}
    (h : ∀ hash, Tidy engine.tree engine.downloader hash) (hquiescent : engine.Quiescent) :
    engine.KeepsPendingOnly := by
  have hblocks : ∀ hash block, engine.tree.blockBuffer.blocks.get hash = some block →
      ¬engine.tree.provider.Contains hash := fun hash block hblock hstored =>
    hquiescent.idle.not_proofPending hash ((h hash).blocks block hblock hstored)
  have hproofs : ∀ hash proof, engine.tree.blockBuffer.proofs.get hash = some proof →
      ∃ block, engine.tree.blockBuffer.blocks.get hash = some block := fun hash proof hproof =>
    ((h hash).proofs proof hproof).resolve_right (hquiescent.idle.not_fullBlockPending hash)
  refine ⟨hblocks, fun hash proof hproof => ?_, hproofs⟩
  obtain ⟨block, hblock⟩ := hproofs hash proof hproof
  exact hblocks hash block hblock

end Tidy

variable {engine engine' : ConsensusEngine X} {σ : SetOrder B256}

/-- **A new payload** leaves its own hash tidy, if its block is not buffered a
second time when it becomes stored. -/
theorem Brings.tidy {payload : ExecutionData} {tx : ℕ} (h : Brings feed engine payload engine')
    (hprovides : feed.Provides (.message (.newPayload payload tx)))
    (hleaves : LeavesNothing engine (.message (.newPayload payload tx)))
    (hrequests : engine.downloader.Requests engine'.downloader)
    (htidy : Tidy engine.tree engine.downloader payload.blockHash) :
    Tidy engine'.tree engine'.downloader payload.blockHash := by
  cases hformed : X.ensureWellFormedPayload payload with
  | error error =>
      obtain ⟨hbuffer, hprovider⟩ := h.malformed error hformed
      have hnone : engine'.tree.blockBuffer.proofs.get payload.blockHash = none := by
        rw [hbuffer]
        exact FiniteMap.get_erase_self _ _
      refine ⟨fun proof hproof => (nomatch hnone.symm.trans hproof), fun block hblock hstored => ?_⟩
      rw [hbuffer] at hblock
      exact hrequests.proofs _ (htidy.blocks block hblock (hprovider ▸ hstored))
  | ok own =>
      obtain ⟨-, hhash⟩ := hprovides own hformed
      have hown := h.own own hformed
      have hverified := h.verified own hformed
      have hasked :
          ∀ buffered proof, engine.tree.blockBuffer.Ready payload.blockHash buffered proof →
          engine.tree.provider.Contains own.parentHash →
          engine.tree.Accepts (engine.tree.payloadCheck own) own proof →
          engine.downloader.ProofPending payload.blockHash :=
        fun buffered proof => hleaves own buffered proof hformed
      rw [← hhash] at hown hverified hasked htidy ⊢
      cases hown with
      | refused blocks proofs stored =>
          exact ⟨fun proof hproof => (nomatch proofs.symm.trans hproof), fun block hblock hstored =>
            hrequests.proofs _ (htidy.blocks block (blocks ▸ hblock) (stored.mp hstored))⟩
      | stored stored blocks proofs =>
          refine ⟨fun proof hproof => (nomatch proofs.symm.trans hproof),
            fun block hblock _ => hrequests.proofs _ ?_⟩
          rcases blocks with hgone | hsame
          · cases hgone.symm.trans hblock
          · have hold : engine.tree.blockBuffer.blocks.get own.hash = some block := hsame ▸ hblock
            by_cases hknown : engine.tree.provider.Contains own.hash
            · exact htidy.blocks block hold hknown
            · obtain ⟨proof, hproof, hparent, haccepts⟩ := hverified hknown stored
              exact hasked block proof ⟨hold, hproof⟩ hparent haccepts
      | buffered blocks proofs fresh =>
          exact ⟨fun _ _ => .inl ⟨own, blocks⟩, fun _ _ hstored => absurd hstored fresh⟩

/-- What is tidy up to the outcome that has left the queue. -/
structure TidyBut (data : DownloadData X.Proof) (tree : EngineTree X)
    (downloader : EngineDownloader X.Proof) (hash : B256) : Prop where
  proofs : ∀ proof, tree.blockBuffer.proofs.get hash = some proof →
    Awaited tree downloader hash ∨ ∃ block, data = .fullBlock block ∧ block.hash = hash
  blocks : ∀ block, tree.blockBuffer.blocks.get hash = some block →
    tree.provider.Contains hash → downloader.ProofPending hash ∨ ∃ proof, data = .proof hash proof

/-- **Storing an outcome** leaves a hash tidy, or ready to be unlocked. -/
theorem store_tidy {data : DownloadData X.Proof} (hfed : FedBy feed engine.tree.blockBuffer)
    (hleaves : LeavesNothing engine (.outcome data))
    (hrecovered : ∀ block, data = .fullBlock block → X.tryRecover block = true) {hash : B256}
    (htidy : TidyBut data engine.tree engine.downloader hash) :
    (∀ proof, (store engine.tree data).blockBuffer.proofs.get hash = some proof →
      Awaited (store engine.tree data) engine.downloader hash) ∧
    ∀ block, (store engine.tree data).blockBuffer.blocks.get hash = some block →
      (store engine.tree data).provider.Contains hash → engine.downloader.ProofPending hash ∨
        hash = unlockedHash data ∧
          ∃ proof, (store engine.tree data).blockBuffer.proofs.get hash = some proof := by
  cases data with
  | finalizedBlock finalized ancestors =>
      refine ⟨fun proof hproof => (htidy.proofs proof hproof).resolve_right nofun,
        fun block hblock hstored => ?_⟩
      by_cases heq : hash = finalized.hash
      · rw [heq] at hblock ⊢
        exact (hleaves block hblock).symm.imp_right fun hproved => ⟨rfl, hproved⟩
      · have hold : engine.tree.provider.Contains hash := by
          obtain ⟨stored, hget⟩ := hstored
          refine ⟨stored, ?_⟩
          rwa [store, insertFinalized_get, if_neg heq] at hget
        exact .inl ((htidy.blocks block hblock hold).resolve_right nofun)
  | fullBlock inserted =>
      obtain ⟨evicted, -, hkept, -, hblocks, hproofs⟩ :=
        BlockBuffer.get_insertBlock hfed.wellFormed inserted
      replace hblocks : (store engine.tree (.fullBlock inserted)).blockBuffer.blocks.get hash = _ :=
        hblocks hash
      replace hproofs : (store engine.tree (.fullBlock inserted)).blockBuffer.proofs.get hash = _ :=
        hproofs hash
      have hneeded : engine.tree.provider.Contains inserted.hash →
          Provable engine.tree engine.downloader inserted.hash := by
        have harrives : if X.tryRecover inserted then _ else _ := hleaves
        rwa [if_pos (hrecovered inserted rfl)] at harrives
      by_cases heq : hash = inserted.hash
      · rw [heq] at hblocks hproofs ⊢
        rw [if_pos rfl] at hblocks
        rw [if_neg hkept] at hproofs
        refine ⟨fun _ _ => .inl ⟨inserted, hblocks⟩, fun block _ hstored => ?_⟩
        rw [hproofs]
        exact (hneeded hstored).symm.imp_right fun hproved => ⟨rfl, hproved⟩
      · rw [if_neg heq] at hblocks
        by_cases hevicted : evicted = some hash
        · rw [if_pos hevicted] at hblocks hproofs
          exact ⟨fun proof hproof => (nomatch hproofs.symm.trans hproof),
            fun block hblock => (nomatch hblocks.symm.trans hblock)⟩
        · rw [if_neg hevicted] at hblocks hproofs
          refine ⟨fun proof hproof => ?_, fun block hblock hstored => .inl ?_⟩
          · unfold Awaited
            rw [hblocks]
            refine (htidy.proofs proof (hproofs ▸ hproof)).resolve_right ?_
            rintro ⟨_, ⟨⟩, hhash⟩
            exact heq hhash.symm
          · exact (htidy.blocks block (hblocks ▸ hblock) hstored).resolve_right nofun
  | proof blockHash inserted =>
      by_cases heq : hash = blockHash
      · rw [heq]
        exact ⟨fun _ _ => hleaves,
          fun _ _ _ => .inr ⟨rfl, inserted, FiniteMap.get_insert_self _ _ _⟩⟩
      · have hproofs : (store engine.tree (.proof blockHash inserted)).blockBuffer.proofs.get hash
            = engine.tree.blockBuffer.proofs.get hash := FiniteMap.get_insert_of_ne _ _ heq
        refine ⟨fun proof hproof => (htidy.proofs proof (hproofs ▸ hproof)).resolve_right nofun,
          fun block hblock hstored => .inl ((htidy.blocks block hblock hstored).resolve_right ?_)⟩
        rintro ⟨_, ⟨⟩⟩
        exact heq rfl

/-- **A download outcome** leaves every hash tidy. -/
theorem onDownloadOutcome_tidy {data : DownloadData X.Proof}
    (h : engine.onDownloadOutcome σ data = (.ok (), engine'))
    (hfed : FedBy feed engine.tree.blockBuffer) (hprovides : feed.Provides (.outcome data))
    (hleaves : LeavesNothing engine (.outcome data)) {hash : B256}
    (htidy : TidyBut data engine.tree engine.downloader hash) :
    Tidy engine'.tree engine'.downloader hash := by
  rcases onDownloadOutcome_stores h with ⟨block, rfl, hunrecovered, hsame⟩ | ⟨hrecovered, unlocks⟩
  · have harrives : if X.tryRecover block then _ else _ := hleaves
    rw [hunrecovered, if_neg Bool.false_ne_true] at harrives
    rw [hsame]
    refine ⟨fun proof hproof => ?_, fun block' hblock hstored =>
      (htidy.blocks block' hblock hstored).resolve_right nofun⟩
    rcases htidy.proofs proof hproof with hawaited | ⟨_, ⟨⟩, rfl⟩
    · exact hawaited
    · exact harrives proof hproof
  · obtain ⟨hproofs, hblocks⟩ := store_tidy hfed hleaves hrecovered htidy
    have hrequests := onDownloadOutcome_requests h
    obtain ⟨hfates, hfresh⟩ := unlocks.fate (FedBy.store hfed hprovides)
    by_cases hready : hash = unlockedHash data ∧
        ∃ block proof, engine'.tree.blockBuffer.Ready hash block proof
    · -- what is still there with both parts is not stored
      obtain ⟨heq, block, proof, hready⟩ := hready
      rw [heq] at hready ⊢
      exact ⟨fun _ _ => .inl ⟨block, hready.1⟩,
        fun _ _ hstored => absurd hstored (hfresh block proof hready)⟩
    · cases hfates hash with
      | kept blocks proofs stored =>
          refine ⟨fun proof hproof => ?_, fun block hblock hstored => ?_⟩
          · unfold Awaited
            rw [blocks]
            exact (hproofs proof (proofs ▸ hproof)).imp_right (hrequests.fullBlocks hash)
          · rcases hblocks block (blocks ▸ hblock) (stored.mp hstored)
              with hpending | ⟨heq, proof, hproof⟩
            · exact hrequests.proofs hash hpending
            · exact absurd ⟨heq, block, proof, hblock, proofs.trans hproof⟩ hready
      | left blocks proofs =>
          exact ⟨fun proof hproof => (nomatch proofs.symm.trans hproof),
            fun block hblock => (nomatch blocks.symm.trans hblock)⟩
      | waiting ready _ fresh' =>
          exact ⟨fun _ _ => .inl ⟨_, ready.1⟩, fun _ _ hstored => absurd hstored fresh'⟩

end ConsensusEngine

open ConsensusEngine

/-- **The buffer keeps only pending data** when a session from the launch comes to
rest, if nothing in it arrives, or becomes stored, without being taken out. -/
theorem keepsPendingOnly_of_session {genesis : Block}
    (hconf : genesis.toSealedHeader.Conforms feed.preimage) {trace : List (Processed X.Proof)}
    {engine : ConsensusEngine X}
    (session : Session (fun _ engine event => feed.Provides event ∧ LeavesNothing engine event)
      (launch X genesis) trace engine) (hquiescent : engine.Quiescent) :
    engine.KeepsPendingOnly := by
  refine keepsPendingOnly_of_tidy ?_ hquiescent
  clear hquiescent
  induction session with
  | start =>
      exact fun hash =>
        ⟨fun proof hproof => (nomatch hproof), fun block hblock => (nomatch hblock)⟩
  | idle session answers matching polled ih =>
      refine fun hash => ⟨fun proof hproof => ?_, fun block hblock hstored => ?_⟩
      · refine ((ih hash).proofs proof hproof).imp_right fun hpending => ?_
        exact ((EngineDownloader.fullBlockPending_poll matching polled).mp hpending).resolve_right
          nofun
      · exact ((EngineDownloader.proofPending_poll polled).mp
          ((ih hash).blocks block hblock hstored)).resolve_right nofun
  | outcome session answers matching polled σ met handled ih =>
      intro hash
      obtain ⟨hfed, -⟩ := session.sound (fun _ _ _ met => met.1) hconf
      refine onDownloadOutcome_tidy handled hfed met.1 met.2
        ⟨fun proof hproof => ?_, fun block hblock hstored => ?_⟩
      · rcases (ih hash).proofs proof hproof with hblock | hpending
        · exact .inl (.inl hblock)
        · refine ((EngineDownloader.fullBlockPending_poll matching polled).mp hpending).imp .inr ?_
          rintro ⟨block, hdata, hhash⟩
          exact ⟨block, Option.some.inj hdata, hhash⟩
      · refine ((EngineDownloader.proofPending_poll polled).mp
          ((ih hash).blocks block hblock hstored)).imp_right ?_
        rintro ⟨proof, hdata⟩
        exact ⟨proof, Option.some.inj hdata⟩
  | @message trace engine session σ message unparked met ih =>
      intro hash
      obtain ⟨hfed, hstocked⟩ := session.sound (fun _ _ _ met => met.1) hconf
      have hrequests := onEngineMessage_requests σ engine message
      cases message with
      | newPayload payload tx =>
          have hbrings := onEngineMessage_brings σ engine payload tx hfed met.1
          by_cases heq : hash = payload.blockHash
          · rw [heq]
            exact hbrings.tidy met.1 met.2 hrequests (ih payload.blockHash)
          · exact (ih hash).fate (hbrings.fates hash heq) hrequests
      | forkchoiceUpdated state payloadAttrs tx version =>
          exact (ih hash).weathers
            (onEngineMessage_weathers σ engine state payloadAttrs tx version hfed hstocked hash)
            hrequests
  | timeout _ _ _ ih => exact ih

namespace SmallWorld

/-- What is processed in the session below: a block arrives before it is stored,
and its proof after it. -/
def blockBeforeProof : ConsensusEngine externals → Processed externals.Proof → Bool
  | engine, .outcome (.fullBlock block) =>
      decide (block.toSealedHeader.Conforms forkFeed.preimage ∧
        ¬engine.tree.provider.Contains block.hash)
  | engine, .outcome (.proof hash _) => (engine.tree.blockBuffer.blocks.get hash).isSome
  | _, .message (.forkchoiceUpdated _ _ _ _) => true
  | _, _ => false

/-- A session in which block 3 and its parent are downloaded and validated. -/
theorem keepsPendingOnly_of_download :
    ∃ engine : ConsensusEngine externals, engine.tree.provider.Contains 3 ∧ engine.Quiescent ∧
      engine.KeepsPendingOnly := by
  have hcheck : ∀ engine event, blockBeforeProof engine event = true →
      forkFeed.Provides event ∧ LeavesNothing engine event := by
    intro engine event h
    match event with
    | .outcome (.fullBlock block) =>
        obtain ⟨hconf, hfresh⟩ := of_decide_eq_true h
        exact ⟨hconf, fun hstored => absurd hstored hfresh⟩
    | .outcome (.proof _ _) => exact ⟨Set.mem_univ _, .inl (Option.isSome_iff_exists.mp h)⟩
    | .message (.forkchoiceUpdated _ _ _ _) => exact ⟨trivial, trivial⟩
  have hends : (takeTurns blockBeforeProof ascending
      [⟨[], [], some (.forkchoiceUpdated ⟨3, 1, 1⟩ none 0 3)⟩, ⟨[block 3 2 2], [], none⟩,
        ⟨[], [(3, true)], none⟩, ⟨[block 2 1 1], [], none⟩, ⟨[], [(2, true)], none⟩]
      (launch externals (block 1 0 0))).any
      (fun engine => decide (engine.tree.provider.Contains 3 ∧
        engine.downloader.inflightFullBlockRequests = [] ∧
        engine.downloader.inflightProofRequests = [] ∧
        engine.downloader.inflightFinalizedBlockRequests = [] ∧
        engine.downloader.outcomes.isEmpty = true ∧ engine.parkedPayload = none)) = true := by
    decide +kernel
  obtain ⟨engine, hturns, hstate⟩ := (Option.any_eq_true _ _).mp hends
  obtain ⟨hstored, hblocks, hproofs, hfinalized, houtcomes, hunparked⟩ := of_decide_eq_true hstate
  have hsession : ∃ trace, Session (fun _ engine event => forkFeed.Provides event ∧
      LeavesNothing engine event) (launch externals (block 1 0 0)) trace engine :=
    Session.of_turns hcheck hturns
  obtain ⟨trace, session⟩ := hsession
  have hquiescent : engine.Quiescent :=
    ⟨⟨hblocks, hproofs, hfinalized, List.isEmpty_iff.mp houtcomes⟩, hunparked⟩
  exact ⟨engine, hstored, hquiescent,
    keepsPendingOnly_of_session fork_isGenesis.conforms session hquiescent⟩

/-- The head of a fork-choice update is requested with its proof, and comes as a
payload before the download. -/
def overtaken : List (Turn externals.Proof) :=
  [⟨[], [], some (.forkchoiceUpdated ⟨2, 1, 1⟩ none 0 3)⟩,
    ⟨[], [], some (.newPayload (payload (block 2 1 1)) 1)⟩,
    ⟨[], [(2, true)], none⟩, ⟨[block 2 1 1], [], none⟩]

/-- **A download that was overtaken stays in the buffer**, although its block has
been validated. -/
theorem overtaken_download_stays :
    ¬∀ trace engine, Session (fun _ _ event => forkFeed.Provides event)
      (launch externals (block 1 0 0)) trace engine → engine.Quiescent →
        engine.KeepsPendingOnly := by
  intro hall
  have hends : (takeTurns (fun _ event => decide (forkFeed.Provides event)) ascending overtaken
      (launch externals (block 1 0 0))).any
      (fun engine => decide (engine.tree.blockBuffer.blocks.get 2 = some (block 2 1 1) ∧
        engine.tree.provider.Contains 2 ∧
        engine.downloader.inflightFullBlockRequests = [] ∧
        engine.downloader.inflightProofRequests = [] ∧
        engine.downloader.inflightFinalizedBlockRequests = [] ∧
        engine.downloader.outcomes.isEmpty = true ∧ engine.parkedPayload = none)) = true := by
    decide +kernel
  obtain ⟨engine, hturns, hstate⟩ := (Option.any_eq_true _ _).mp hends
  obtain ⟨hblock, hstored, hblocks, hproofs, hfinalized, houtcomes, hunparked⟩ :=
    of_decide_eq_true hstate
  have hsession : ∃ trace, Session (fun _ _ event => forkFeed.Provides event)
      (launch externals (block 1 0 0)) trace engine :=
    Session.of_turns (fun _ _ h => of_decide_eq_true h) hturns
  obtain ⟨trace, session⟩ := hsession
  have hidle : engine.downloader.Idle :=
    ⟨hblocks, hproofs, hfinalized, List.isEmpty_iff.mp houtcomes⟩
  exact (hall trace engine session ⟨hidle, hunparked⟩).blocks 2 _ hblock hstored

end SmallWorld

end ZkRess
