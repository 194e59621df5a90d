import ZkRess.Engine.Fates
import ZkRess.Engine.SmallWorld

/-!
# Pending blocks and their proofs

A buffered block that has no proof waits for one, so its proof should be on its
way.  A request for a block comes with a request for its proof only if no proof is
buffered at that moment, and a buffered proof can be lost before the block is
there: a new payload takes it out, and puts it back only if its block is buffered
again.  So the block of a download may arrive when its proof is gone
(`malformed_payload_takes_proof`).

Everything else keeps up with the buffered blocks: evictions take block and proof
together, descendants are put back with their proofs, and a payload without a
proof is buffered only with a request for it.
-/

namespace ZkRess

open Foundation

variable {X : Externals} {feed : Feed X}

namespace ConsensusEngine

/-- **No pending block waits for a proof that nobody fetches.** -/
def ProofsFetched (engine : ConsensusEngine X) : Prop :=
  ∀ hash block, engine.tree.blockBuffer.blocks.get hash = some block →
    ¬engine.tree.provider.Contains hash →
      ¬X.invalidHeaderCache.Cached engine.tree.invalidHeaders hash →
        engine.tree.blockBuffer.proofs.get hash = none → engine.downloader.ProofPending hash

/-- The proof of a hash is buffered or on its way, or no longer needed. -/
def Supplied (tree : EngineTree X) (downloader : EngineDownloader X.Proof) (hash : B256) : Prop :=
  (∃ proof, tree.blockBuffer.proofs.get hash = some proof) ∨ downloader.ProofPending hash ∨
    tree.provider.Contains hash

/-- The hash is the one of a pending block whose proof is buffered, and is not
requested again. -/
structure Furnished (engine : ConsensusEngine X) (hash : B256) : Prop where
  buffered : ∃ block proof, engine.tree.blockBuffer.Ready hash block proof
  unrequested : ¬engine.downloader.ProofPending hash
  fresh : ¬engine.tree.provider.Contains hash

/-- **The condition on events**: a downloaded block is supplied when it arrives,
and a new payload that takes the proof of a pending block is accepted. -/
def KeepsProofs (engine : ConsensusEngine X) : Processed X.Proof → Prop
  | .outcome (.fullBlock block) =>
      X.tryRecover block = true → Supplied engine.tree engine.downloader block.hash
  | .message (.newPayload payload _) => Furnished engine payload.blockHash →
      ∃ block, X.ensureWellFormedPayload payload = .ok block ∧
        ∀ proof, engine.tree.blockBuffer.proofs.get payload.blockHash = some proof →
          engine.tree.Accepts (engine.tree.payloadCheck block) block proof
  | _ => True

/-! ## What events preserve -/

/-- If a hash has a buffered block, it is supplied. -/
def Keeps (tree : EngineTree X) (downloader : EngineDownloader X.Proof) (hash : B256) : Prop :=
  ∀ block, tree.blockBuffer.blocks.get hash = some block → Supplied tree downloader hash

section Keeps

variable {tree tree' : EngineTree X} {downloader downloader' : EngineDownloader X.Proof}
  {hash : B256}

/-- Each of the fates keeps the buffered blocks supplied. -/
theorem Keeps.fate (h : Keeps tree downloader hash) (hfate : tree.Fate tree' hash)
    (hrequests : downloader.Requests downloader') : Keeps tree' downloader' hash := by
  intro block hblock
  cases hfate with
  | kept blocks proofs stored =>
      unfold Supplied
      rw [proofs, stored]
      exact (h block (blocks ▸ hblock)).imp_right (.imp_left (hrequests.proofs hash))
  | left blocks => cases blocks.symm.trans hblock
  | waiting ready => exact .inl ⟨_, ready.2⟩

/-- A fork-choice update evicts a block together with its proof. -/
theorem Keeps.weathers (h : Keeps tree downloader hash) (hweathers : tree.Weathers tree' hash)
    (hrequests : downloader.Requests downloader') : Keeps tree' downloader' hash := by
  intro block hblock
  rcases hweathers.buffer with ⟨blocks, proofs⟩ | ⟨blocks, -⟩
  · unfold Supplied
    rw [proofs]
    exact (h block (blocks ▸ hblock)).imp_right
      (.imp (hrequests.proofs hash) (hweathers.stored block hblock))
  · cases blocks.symm.trans hblock

end Keeps

variable {engine engine' : ConsensusEngine X} {σ : SetOrder B256}

/-- **A new payload** keeps its own hash supplied, too, if its proof is not wasted. -/
theorem Brings.keeps {payload : ExecutionData} {tx : ℕ} (h : Brings feed engine payload engine')
    (hprovides : feed.Provides (.message (.newPayload payload tx)))
    (hkeeps : KeepsProofs engine (.message (.newPayload payload tx)))
    (hrequests : engine.downloader.Requests engine'.downloader)
    (hsupplied : Keeps engine.tree engine.downloader payload.blockHash) :
    Keeps engine'.tree engine'.downloader payload.blockHash := by
  intro block hbuffered
  cases hformed : X.ensureWellFormedPayload payload with
  | error error =>
      obtain ⟨hbuffer, hprovider⟩ := h.malformed error hformed
      rw [hbuffer] at hbuffered
      rcases hsupplied block hbuffered with ⟨proof, hproof⟩ | hpending | hstored
      · by_contra hunsupplied
        have hfurnished : Furnished engine payload.blockHash :=
          ⟨⟨block, proof, hbuffered, hproof⟩,
            fun hpending => hunsupplied (.inr (.inl (hrequests.proofs _ hpending))),
            fun hstored => hunsupplied (.inr (.inr (hprovider ▸ hstored)))⟩
        obtain ⟨block', hformed', -⟩ := hkeeps hfurnished
        cases hformed.symm.trans hformed'
      · exact .inr (.inl (hrequests.proofs _ hpending))
      · exact .inr (.inr (hprovider ▸ hstored))
  | ok own =>
      obtain ⟨-, hhash⟩ := hprovides own hformed
      have hown := h.own own hformed
      have hasks := h.asks own hformed
      have haccepted := fun proof => h.accepted own proof hformed
      have hfurnished : Furnished engine payload.blockHash → ∃ block',
          X.ensureWellFormedPayload payload = .ok block' ∧ _ := hkeeps
      rw [← hhash] at hown hasks haccepted hfurnished hsupplied hbuffered ⊢
      cases hown with
      | stored stored => exact .inr (.inr stored)
      | refused blocks proofs stored =>
          have hold : engine.tree.blockBuffer.blocks.get own.hash = some block := blocks ▸ hbuffered
          rcases hsupplied block hold with ⟨proof, hproof⟩ | hpending | hstored
          · by_contra hunsupplied
            obtain ⟨own', hformed', haccepts⟩ := hfurnished ⟨⟨block, proof, hold, hproof⟩,
              fun hpending => hunsupplied (.inr (.inl (hrequests.proofs _ hpending))),
              fun hstored => hunsupplied (.inr (.inr (h.stored _ hstored)))⟩
            cases hformed.symm.trans hformed'
            rcases haccepted proof hproof (haccepts proof hproof) with hstored | hproved
            · exact hunsupplied (.inr (.inr hstored))
            · exact hunsupplied (.inl ⟨proof, hproved⟩)
          · exact .inr (.inl (hrequests.proofs _ hpending))
          · exact .inr (.inr (h.stored _ hstored))
      | buffered blocks proofs fresh =>
          cases hproof : engine.tree.blockBuffer.proofs.get own.hash with
          | some proof => exact .inl ⟨proof, proofs.trans hproof⟩
          | none =>
              rcases hasks hproof with hstored | hsame | hpending
              · exact .inr (.inr hstored)
              · rw [hsame] at hbuffered
                rcases hsupplied block hbuffered with ⟨proof, hproof'⟩ | hpending | hstored
                · cases hproof.symm.trans hproof'
                · exact .inr (.inl (hrequests.proofs _ hpending))
                · exact .inr (.inr (h.stored _ hstored))
              · exact .inr (.inl hpending)

/-- **Storing an outcome** keeps the buffered blocks supplied, if a downloaded
block is; a proof even supplies its own hash. -/
theorem store_keeps {data : DownloadData X.Proof} {downloader : EngineDownloader X.Proof}
    (hfed : FedBy feed engine.tree.blockBuffer)
    (harrives : ∀ block, data = .fullBlock block → Supplied engine.tree downloader block.hash)
    {hash : B256}
    (hsupplied : Keeps engine.tree downloader hash ∨ ∃ proof, data = .proof hash proof) :
    Keeps (store engine.tree data) downloader hash := by
  intro block hblock
  cases data with
  | finalizedBlock finalized ancestors =>
      rcases hsupplied with hsupplied | ⟨proof, heq⟩
      · rcases hsupplied block hblock with hproof | hpending | ⟨stored, hstored⟩
        · exact .inl hproof
        · exact .inr (.inl hpending)
        · refine .inr (.inr (Option.isSome_iff_exists.mp ?_))
          show ((insertFinalized engine.tree finalized ancestors).provider.blocksByHash.get
            hash).isSome
            = true
          rw [insertFinalized_get]
          split
          · rfl
          · rw [hstored]
            rfl
      · cases heq
  | fullBlock inserted =>
      obtain ⟨evicted, -, hkept, -, hblocks, hproofs⟩ :=
        BlockBuffer.get_insertBlock hfed.wellFormed inserted
      have hget := (hblocks hash).symm.trans hblock
      have hunevicted : evicted ≠ some hash := by
        rintro rfl
        rw [if_neg (fun heq => hkept (congrArg some heq)), if_pos rfl] at hget
        cases hget
      have hproof : (store engine.tree (.fullBlock inserted)).blockBuffer.proofs.get hash
          = engine.tree.blockBuffer.proofs.get hash := (hproofs hash).trans (if_neg hunevicted)
      unfold Supplied
      rw [hproof]
      by_cases heq : hash = inserted.hash
      · rw [heq]
        exact harrives inserted rfl
      · rw [if_neg heq, if_neg hunevicted] at hget
        rcases hsupplied with hsupplied | ⟨proof, heq⟩
        · exact hsupplied block hget
        · cases heq
  | proof blockHash inserted =>
      by_cases heq : hash = blockHash
      · rw [heq]
        exact .inl ⟨inserted, FiniteMap.get_insert_self _ _ _⟩
      · have hproof : (store engine.tree (.proof blockHash inserted)).blockBuffer.proofs.get hash
            = engine.tree.blockBuffer.proofs.get hash := FiniteMap.get_insert_of_ne _ _ heq
        unfold Supplied
        rw [hproof]
        rcases hsupplied with hsupplied | ⟨proof, hdata⟩
        · exact hsupplied block hblock
        · cases hdata
          exact absurd rfl heq

/-- **A download outcome** keeps the buffered blocks supplied. -/
theorem onDownloadOutcome_keeps {data : DownloadData X.Proof}
    (h : engine.onDownloadOutcome σ data = (.ok (), engine'))
    (hfed : FedBy feed engine.tree.blockBuffer) (hprovides : feed.Provides (.outcome data))
    (hkeeps : KeepsProofs engine (.outcome data)) {hash : B256}
    (hsupplied : Keeps engine.tree engine.downloader hash ∨ ∃ proof, data = .proof hash proof) :
    Keeps engine'.tree engine'.downloader hash := by
  rcases onDownloadOutcome_stores h with ⟨block, rfl, -, hsame⟩ | ⟨hrecovered, unlocks⟩
  · rw [hsame]
    exact hsupplied.resolve_right nofun
  · have harrives : ∀ block, data = .fullBlock block →
        Supplied engine.tree engine.downloader block.hash := by
      rintro block rfl
      exact hkeeps (hrecovered block rfl)
    have hstored := store_keeps hfed harrives hsupplied
    exact hstored.fate ((unlocks.fate (FedBy.store hfed hprovides)).1 hash)
      (onDownloadOutcome_requests h)

end ConsensusEngine

open ConsensusEngine

/-- **The proofs of pending blocks are fetched** in every session from the launch
on in which downloaded blocks arrive supplied and no proof is wasted. -/
theorem proofsFetched_of_session {genesis : Block}
    (hconf : genesis.toSealedHeader.Conforms feed.preimage) {trace : List (Processed X.Proof)}
    {engine : ConsensusEngine X}
    (session : Session (fun _ engine event => feed.Provides event ∧ KeepsProofs engine event)
      (launch X genesis) trace engine) : engine.ProofsFetched := by
  have hsupplied : ∀ hash, Keeps engine.tree engine.downloader hash := by
    induction session with
    | start => exact fun hash block hblock => nomatch hblock
    | idle session answers matching polled ih =>
        intro hash block hblock
        refine (ih hash block hblock).imp_right (.imp_left fun hpending => ?_)
        exact ((EngineDownloader.proofPending_poll polled).mp hpending).resolve_right nofun
    | @outcome trace engine downloader data engine' session answers matching polled σ met handled
        ih =>
        intro hash
        obtain ⟨hfed, -⟩ := session.sound (fun _ _ _ met => met.1) hconf
        refine onDownloadOutcome_keeps handled hfed met.1 met.2 (or_iff_not_imp_right.mpr ?_)
        intro hother block hblock
        refine (ih hash block hblock).imp_right (.imp_left fun hpending => ?_)
        refine ((EngineDownloader.proofPending_poll polled).mp hpending).resolve_right ?_
        rintro ⟨proof, heq⟩
        exact hother ⟨proof, Option.some.inj heq⟩
    | @message trace engine session σ message unparked met ih =>
        intro hash
        obtain ⟨hfed, hstocked⟩ := session.sound (fun _ _ _ met => met.1) hconf
        have hrequests := onEngineMessage_requests σ engine message
        cases message with
        | newPayload payload tx =>
            have hbrings := onEngineMessage_brings σ _ payload tx hfed met.1
            by_cases heq : hash = payload.blockHash
            · rw [heq]
              exact hbrings.keeps met.1 met.2 hrequests (ih payload.blockHash)
            · exact (ih hash).fate (hbrings.fates hash heq) hrequests
        | forkchoiceUpdated state payloadAttrs tx version =>
            exact (ih hash).weathers
              (onEngineMessage_weathers σ _ state payloadAttrs tx version hfed hstocked hash)
              hrequests
    | timeout _ _ _ ih => exact ih
  intro hash block hblock hfresh _ hunproved
  rcases hsupplied hash block hblock with ⟨proof, hproof⟩ | hpending | hstored
  · cases hunproved.symm.trans hproof
  · exact hpending
  · exact absurd hstored hfresh

namespace SmallWorld

/-- What is processed in the session below: block 3 arrives while its proof is in
flight. -/
def requestedTogether : ConsensusEngine externals → Processed externals.Proof → Bool
  | engine, .outcome (.fullBlock block) =>
      decide (block.toSealedHeader.Conforms forkFeed.preimage ∧
        block.hash ∈ engine.downloader.inflightProofRequests)
  | _, .message (.forkchoiceUpdated _ _ _ _) => true
  | _, _ => false

/-- A session in which a block waits for its proof. -/
theorem proofsFetched_of_download :
    ∃ engine : ConsensusEngine externals, (engine.tree.blockBuffer.blocks.get 3).isSome = true ∧
      engine.ProofsFetched := by
  have hcheck : ∀ engine event, requestedTogether engine event = true →
      forkFeed.Provides event ∧ KeepsProofs engine event := by
    intro engine event h
    match event with
    | .outcome (.fullBlock _) =>
        obtain ⟨hconf, hinflight⟩ := of_decide_eq_true h
        exact ⟨hconf, fun _ => .inr (.inl (.inl hinflight))⟩
    | .message (.forkchoiceUpdated _ _ _ _) => exact ⟨trivial, trivial⟩
  have hends : (takeTurns requestedTogether ascending
      [⟨[], [], some (.forkchoiceUpdated ⟨3, 1, 1⟩ none 0 3)⟩, ⟨[block 3 2 2], [], none⟩]
      (launch externals (block 1 0 0))).any
      (fun engine => (engine.tree.blockBuffer.blocks.get 3).isSome) = true := by decide +kernel
  obtain ⟨engine, hturns, hstate⟩ := (Option.any_eq_true _ _).mp hends
  have hsession : ∃ trace, Session (fun _ engine event => forkFeed.Provides event ∧
      KeepsProofs engine event) (launch externals (block 1 0 0)) trace engine :=
    Session.of_turns hcheck hturns
  obtain ⟨trace, session⟩ := hsession
  exact ⟨engine, hstate, proofsFetched_of_session fork_isGenesis.conforms session⟩

/-- A world in which only payloads with an empty body are well formed. -/
def strictPayloads : Externals :=
  { externals with
    ensureWellFormedPayload := fun payload =>
      if payload.encoded = [] then externals.ensureWellFormedPayload payload
      else .error ⟨true, false, "block hash mismatch"⟩ }

/-- A feed of that world. -/
def strictFeed : Feed strictPayloads where
  preimage := forkFeed.preimage
  preimage_keyed := forkFeed.preimage_keyed
  blocks := forkFeed.blocks
  proofs := forkFeed.proofs
  finalized := forkFeed.finalized
  states := forkFeed.states
  blocks_conform := forkFeed.blocks_conform
  finalized_conform := forkFeed.finalized_conform
  ancestors_conform := forkFeed.ancestors_conform

/-- What is processed in the session below. -/
def strictlyProvided : Processed strictPayloads.Proof → Bool
  | .message (.newPayload payload _) => decide (payload.encoded ≠ [])
  | .message (.forkchoiceUpdated _ _ _ _) => true
  | .outcome (.fullBlock block) => decide (block.toSealedHeader.Conforms forkFeed.preimage)
  | .outcome (.proof _ _) => true
  | _ => false

/-- The head of a fork-choice update is requested with its proof.  The proof
arrives first, a malformed payload takes it, and then the block arrives. -/
def proofTaken : List (Turn strictPayloads.Proof) :=
  [⟨[], [], some (.forkchoiceUpdated ⟨3, 1, 1⟩ none 0 3)⟩,
    ⟨[], [(3, true)], none⟩,
    ⟨[], [], some (.newPayload { payload (block 3 2 2) with encoded := [1] } 1)⟩,
    ⟨[block 3 2 2], [], none⟩]

/-- **A malformed payload takes the proof** of a block that is on its way, and
nobody fetches it again. -/
theorem malformed_payload_takes_proof :
    ¬∀ trace engine, Session (fun _ _ event => strictFeed.Provides event)
      (launch strictPayloads (block 1 0 0)) trace engine → engine.ProofsFetched := by
  intro hall
  have hcheck : ∀ event, strictlyProvided event = true → strictFeed.Provides event := by
    intro event h
    match event with
    | .message (.newPayload payload _) =>
        intro block hformed
        have hmalformed : strictPayloads.ensureWellFormedPayload payload
            = .error ⟨true, false, "block hash mismatch"⟩ := if_neg (of_decide_eq_true h)
        cases hmalformed.symm.trans hformed
    | .message (.forkchoiceUpdated _ _ _ _) => exact Set.mem_univ _
    | .outcome (.fullBlock block) =>
        have hconf : block.toSealedHeader.Conforms forkFeed.preimage := of_decide_eq_true h
        exact hconf
    | .outcome (.proof _ _) => exact Set.mem_univ _
  have hends : (takeTurns (fun _ => strictlyProvided) ascending proofTaken
      (launch strictPayloads (block 1 0 0))).any
      (fun engine => decide (engine.tree.blockBuffer.blocks.get 3 = some (block 3 2 2) ∧
        ¬engine.tree.provider.Contains 3 ∧
        ((cache.contents engine.tree.invalidHeaders).get 3).isNone = true ∧
        (engine.tree.blockBuffer.proofs.get 3).isNone = true ∧
        engine.downloader.inflightFullBlockRequests = [] ∧
        engine.downloader.inflightProofRequests = [] ∧
        engine.downloader.inflightFinalizedBlockRequests = [] ∧
        engine.downloader.outcomes.isEmpty = true)) = true := by decide +kernel
  obtain ⟨engine, hturns, hstate⟩ := (Option.any_eq_true _ _).mp hends
  obtain ⟨hblock, hfresh, hunmarked, hproof, hblocks, hproofs, hfinalized, houtcomes⟩ :=
    of_decide_eq_true hstate
  rw [Option.isNone_iff_eq_none] at hunmarked hproof
  have hsession : ∃ trace, Session (fun _ _ event => strictFeed.Provides event)
      (launch strictPayloads (block 1 0 0)) trace engine :=
    Session.of_turns (fun _ event h => hcheck event h) hturns
  obtain ⟨trace, session⟩ := hsession
  have hidle : engine.downloader.Idle :=
    ⟨hblocks, hproofs, hfinalized, List.isEmpty_iff.mp houtcomes⟩
  refine hidle.not_proofPending 3
    (hall trace engine session 3 _ hblock hfresh ?_ hproof)
  rintro ⟨entry, hentry⟩
  cases hunmarked.symm.trans hentry

end SmallWorld

end ZkRess
