import ZkRess.Properties.Verdicts

/-!
# Nothing is called invalid without a rejection

Whatever peers send, a hash is remembered as invalid, and answered `Invalid`, only if the
block or one of its ancestors was rejected earlier in the same run: the stateless checks
failed on a delivered block, or the verifier returned a validation error on a delivered
proof, under the parent stored at that time.

The result needs nothing of the proofs delivered.  When they disagree, a block may be
rejected and accepted later; then both verdicts have their ground in the run.
-/

namespace ZkRess

open Foundation ConsensusEngine

variable {X : Externals} {feed : Feed X}

/-! ## Histories in a row -/

theorem ConsensusEngine.History.trans {tree tree' tree'' : EngineTree X} {marks marks' : List Mark}
    (history : History feed tree marks tree') (history' : History feed tree' marks' tree'') :
    History feed tree (marks ++ marks') tree'' := by
  induction history' with
  | start => rwa [List.append_nil]
  | step _ step ih =>
      rw [← List.append_assoc]
      exact ih.step step
  | finalized _ block ancestors fed ih => exact ih.finalized block ancestors fed

/-! ## What a verdict stands on -/

/-- **Rejected on the way**: the history passes through a state in which a delivered
block with this hash is not stored, and is rejected. -/
def RejectedDuring (feed : Feed X) (start finish : EngineTree X) (hash : B256) : Prop :=
  ∃ marks tree block marks', History feed start marks tree ∧ block ∈ feed.blocks ∧
    block.hash = hash ∧ ¬tree.provider.Contains hash ∧ Rejects feed tree.provider block ∧
      History feed tree marks' finish

/-- The hash, or one below it, was rejected on the way. -/
def Blamed (feed : Feed X) (start finish : EngineTree X) (hash : B256) : Prop :=
  ∃ rejected, feed.Descends hash rejected ∧ RejectedDuring feed start finish rejected

/-- What a tree has to call a hash invalid for: a hash at or below it that is remembered,
or a block it rejects. -/
inductive Grounds (feed : Feed X) (tree : EngineTree X) (hash : B256) : Prop
  | remembered {check} (descends : feed.Descends hash check)
      (cached : X.invalidHeaderCache.Cached tree.invalidHeaders check)
  | rejected {block} (fed : block ∈ feed.blocks) (hash_eq : block.hash = hash)
      (fresh : ¬tree.provider.Contains block.hash) (reason : Rejects feed tree.provider block)

namespace Blamed

variable {start tree tree' : EngineTree X} {hash : B256}

/-- What comes later takes no blame away. -/
theorem extend (h : Blamed feed start tree hash) {marks : List Mark}
    (history : History feed tree marks tree') : Blamed feed start tree' hash := by
  obtain ⟨rejected, hdescends, marks₁, tree₁, block, marks₂, hbefore, hblock, hhash, hfresh,
    hreason, hafter⟩ := h
  exact ⟨rejected, hdescends, marks₁, tree₁, block, _, hbefore, hblock, hhash, hfresh, hreason,
    hafter.trans history⟩

theorem of_descends {check : B256} (hdescends : feed.Descends hash check)
    (h : Blamed feed start tree check) : Blamed feed start tree hash := by
  obtain ⟨rejected, hbelow, hrejected⟩ := h
  exact ⟨rejected, hdescends.trans hbelow, hrejected⟩

/-- A block that the tree rejects is to blame itself. -/
theorem of_rejects {marks : List Mark} (history : History feed start marks tree) {block : Block}
    (hblock : block ∈ feed.blocks) (hfresh : ¬tree.provider.Contains block.hash)
    (hreason : Rejects feed tree.provider block) : Blamed feed start tree block.hash :=
  ⟨block.hash, .refl feed _, marks, tree, block, [], history, hblock, rfl, hfresh, hreason, .start⟩

/-- **What is remembered is blamed**, in every state of a history. -/
theorem of_cached (hlawful : X.invalidHeaderCache.Lawful)
    (hempty : ∀ hash, ¬X.invalidHeaderCache.Cached start.invalidHeaders hash) {marks : List Mark}
    (history : History feed start marks tree) (hash : B256)
    (hcached : X.invalidHeaderCache.Cached tree.invalidHeaders hash) :
    Blamed feed start tree hash := by
  induction history generalizing hash with
  | start => exact absurd hcached (hempty hash)
  | @step marks tree₁ tree₂ mark history hstep ih =>
      have hafter : History feed tree₁ mark.toList tree₂ := History.start.step hstep
      -- an entry is an old one, or that of the hash the step adds
      have hgrown : ∀ {added}, CacheGrows tree₁ tree₂ added → added = some hash ∨
          X.invalidHeaderCache.Cached tree₁.invalidHeaders hash := by
        intro added hgrows
        obtain ⟨entry, hget⟩ := hcached
        exact (hgrows hlawful hash entry hget).imp_right fun hold => ⟨entry, hold⟩
      have hquiet : CacheGrows tree₁ tree₂ none → Blamed feed start tree₂ hash := fun hgrows =>
        (ih hash ((hgrown hgrows).resolve_left nofun)).extend hafter
      cases hstep with
      | quiet _ _ cache => exact hquiet cache
      | condemn fed fresh reason _ _ cache =>
          rcases hgrown cache with hnew | hold
          · obtain rfl := Option.some.inj hnew
            exact (of_rejects history fed fresh reason).extend hafter
          · exact (ih hash hold).extend hafter
      | inherit _ descends known _ _ cache =>
          rcases hgrown cache with hnew | hold
          · obtain rfl := Option.some.inj hnew
            exact (of_descends descends (ih _ (known hlawful))).extend hafter
          · exact (ih hash hold).extend hafter
      | verify _ _ _ _ _ _ _ _ cache => exact hquiet cache
      | advance _ _ _ cache => exact hquiet cache
      | prune _ _ _ _ _ cache => exact hquiet cache
  | finalized history block ancestors fed ih =>
      exact (ih hash hcached).extend (History.start.finalized block ancestors fed)

end Blamed

namespace Grounds

variable {tree tree' : EngineTree X} {hash : B256}

/-- Grounds are a matter of the stored blocks and the remembered hashes. -/
theorem of_eq (h : Grounds feed tree hash) (provider : tree'.provider = tree.provider)
    (cache : tree'.invalidHeaders = tree.invalidHeaders) : Grounds feed tree' hash := by
  cases h with
  | remembered descends cached => exact .remembered descends (cache ▸ cached)
  | rejected fed hash_eq fresh reason =>
      exact .rejected fed hash_eq (provider ▸ fresh) (provider ▸ reason)

/-- In a state of a history, grounds are somebody's blame. -/
theorem blamed (hlawful : X.invalidHeaderCache.Lawful) {start : EngineTree X}
    (hempty : ∀ hash, ¬X.invalidHeaderCache.Cached start.invalidHeaders hash) {marks : List Mark}
    (history : History feed start marks tree) (h : Grounds feed tree hash) :
    Blamed feed start tree hash := by
  cases h with
  | remembered descends cached =>
      exact .of_descends descends (.of_cached hlawful hempty history _ cached)
  | rejected fed hash_eq fresh reason =>
      subst hash_eq
      exact .of_rejects history fed fresh reason

/-- **The block handlers have grounds**: an `Invalid` names a remembered ancestor, or the
block has just been rejected. -/
theorem of_handles (hlawful : X.invalidHeaderCache.Lawful) {σ : SetOrder B256} {check : B256}
    {block : Block} {maybeProof : Option X.Proof} (hblock : block ∈ feed.blocks)
    (hdescends : feed.Descends block.hash check)
    (hproof : ∀ proof, maybeProof = some proof → proof ∈ feed.proofs block.hash)
    {outcome : TreeOutcome PayloadStatus} {message : String}
    (hinvalid : outcome.outcome.status = .invalid message)
    (handles : EngineTree.Handles σ tree check block maybeProof (.ok outcome) tree') :
    Grounds feed tree block.hash := by
  cases handles with
  | invalidAncestor checks =>
      cases checks with
      | @invalid _ entry _ _ _ found =>
          exact .remembered hdescends ⟨entry, hlawful.get_sound _ _ _ found⟩
  | failed checks inserts fails =>
      obtain ⟨rfl, hfresh, hreason⟩ := inserts.reason hproof
      cases checks with
      | clear peeks =>
          rw [peeks.provider] at hfresh hreason
          cases fails with
          | invalid isValidation => exact .rejected hblock rfl hfresh (hreason _ isValidation)
  | connected => cases hinvalid
  | seen => cases hinvalid
  | disconnected => cases hinvalid
  | noProof => cases hinvalid

/-- **Fork-choice updates have grounds.** -/
theorem of_updates (hlawful : X.invalidHeaderCache.Lawful) (hfed : FedBy feed tree.blockBuffer)
    {σ : SetOrder B256} {state : ForkchoiceState} {outcome : TreeOutcome OnForkChoiceUpdated}
    {status : PayloadStatus} {message : String}
    (updates : EngineTree.Updates σ tree state (.ok outcome) tree')
    (hstatus : outcome.outcome = .valid status ∨ outcome.outcome = .withInvalid status)
    (hinvalid : status.status = .invalid message) : Grounds feed tree state.headBlockHash := by
  -- the other ways out answer with an error, `Valid` or `Syncing`
  have hother : ∀ {latest : Option B256}, outcome.outcome ≠ .valid ⟨.valid, latest⟩ ∧
      outcome.outcome ≠ .valid ⟨.syncing, latest⟩ := by
    intro latest
    constructor <;> intro heq <;> rw [heq] at hstatus <;>
      rcases hstatus with hvalid | hvalid <;> cases hvalid <;> cases hinvalid
  have herror : outcome.outcome ≠ .invalidState ∧ outcome.outcome ≠ .invalidPayloadAttributes := by
    rcases hstatus with heq | heq <;> rw [heq] <;> exact ⟨nofun, nofun⟩
  cases updates with
  | refused peeks answer =>
      rcases answer with rfl | ⟨_, _, entry, rfl, -, hfound⟩
      · exact absurd rfl herror.1
      · exact .remembered (EngineTree.descends_lowestBufferedAncestorOr hfed _)
          ⟨entry, hlawful.get_sound _ _ _ hfound⟩
  | atHead _ _ answer =>
      cases answer with
      | inconsistent => exact absurd rfl herror.1
      | invalidAttributes => exact absurd rfl herror.2
      | valid => exact absurd rfl hother.1
  | inconsistent => exact absurd rfl herror.1
  | applied _ _ _ _ answer =>
      rcases answer with heq | heq <;> cases heq
      · exact absurd rfl hother.1
      · exact absurd rfl herror.2
  | known => exact absurd rfl hother.1
  | syncing => exact absurd rfl hother.2

end Grounds

/-! ## The answers of an event -/

section Events

variable {engine engine' : ConsensusEngine X} {σ : SetOrder B256}

/-- What an event has sent, when it sends one answer. -/
private theorem mem_of_sent {responses responses' sent : List Response} {answer answer' : Response}
    (hsent : responses' = responses ++ sent) (hresponses : responses' = responses ++ [answer])
    (hmem : answer' ∈ sent) : answer' = answer := by
  rw [List.append_cancel_left (hsent.symm.trans hresponses)] at hmem
  exact List.mem_singleton.mp hmem

/-- An event that sends nothing answers nothing. -/
private theorem not_sent {responses sent : List Response} {answer : Response}
    (hsent : responses = responses ++ sent) : answer ∉ sent := by
  rw [List.self_eq_append_right] at hsent
  rw [hsent]
  exact List.not_mem_nil

/-- An `Invalid` for a new payload has grounds. -/
private theorem ConsensusEngine.Receives.grounds (hlawful : X.invalidHeaderCache.Lawful)
    {payload : ExecutionData} {tx : ℕ} (h : Receives σ engine payload tx engine')
    (hprovides : feed.Provides (.message (.newPayload payload tx)))
    (hfed : FedBy feed engine.tree.blockBuffer) {block : Block}
    (hformed : X.ensureWellFormedPayload payload = .ok block) {sent : List Response}
    (hsent : engine'.responses = engine.responses ++ sent) {status : PayloadStatus}
    {message : String} (hmem : .payload tx (.ok status) ∈ sent)
    (hinvalid : status.status = .invalid message) : Grounds feed engine.tree block.hash := by
  obtain ⟨hblock, hhash⟩ := hprovides block hformed
  cases h with
  | parked _ _ _ _ _ responses =>
      rw [responses] at hsent
      exact absurd hmem (not_sent hsent)
  | @answered result tree' handled _ _ responses =>
      have heq := mem_of_sent hsent responses hmem
      cases result with
      | error => cases heq
      | ok outcome =>
          cases heq
          have hhandles := EngineTree.onNewPayload_cases σ
            { engine.tree with
              blockBuffer := (engine.tree.blockBuffer.removeProof payload.blockHash).2 }
            (engine.tree.blockBuffer.removeProof payload.blockHash).1 hformed
          replace handled : EngineTree.onNewPayload σ _ payload _ = (.ok outcome, tree') := handled
          rw [handled] at hhandles
          refine (Grounds.of_handles hlawful hblock
            (EngineTree.descends_payloadCheck (hfed.removeProof payload.blockHash) hblock)
            (fun proof hproof => ?_) hinvalid hhandles).of_eq rfl rfl
          rw [hhash]
          exact hfed.removeProof_fed hproof

/-- An `Invalid` for a parked payload has grounds. -/
private theorem ConsensusEngine.Unlocks.grounds (hlawful : X.invalidHeaderCache.Lawful)
    {hash : B256} (h : Unlocks σ engine hash engine')
    (hfed : FedExcept feed hash engine.tree.blockBuffer) {parked : ParkedPayload}
    (hparked : engine.parkedPayload = some parked) {sent : List Response}
    (hsent : engine'.responses = engine.responses ++ sent) {status : PayloadStatus}
    {message : String} (hmem : .payload parked.tx (.ok status) ∈ sent)
    (hinvalid : status.status = .invalid message) :
    Grounds feed engine.tree parked.blockHash := by
  cases h with
  | locked _ same =>
      rw [same] at hsent
      exact absurd hmem (not_sent hsent)
  | @handled block proof result tree' ready handled _ answers =>
      cases answers with
      | unrelated _ _ responses =>
          rw [responses] at hsent
          exact absurd hmem (not_sent hsent)
      | @answered parked' wasParked own _ responses =>
          cases hparked.symm.trans wasParked
          have heq := mem_of_sent hsent responses hmem
          cases result with
          | error => cases heq
          | ok outcome =>
              cases heq
              have hhandles :=
                EngineTree.onDownloadedBlock_cases σ (takeOut engine.tree hash block) block proof
              rw [handled] at hhandles
              have hkey := BlockBuffer.hash_of_get ready.1
              have hbuffer : FedBy feed (takeOut engine.tree hash block).blockBuffer :=
                hfed.drop ready
              rw [own, ← hkey]
              refine (Grounds.of_handles hlawful (hfed.blocks _ _ ready.1)
                (EngineTree.descends_lowestBufferedAncestorOr hbuffer block.hash)
                (fun proof' hproof => ?_) hinvalid hhandles).of_eq rfl rfl
              cases hproof
              rw [hkey]
              exact hfed.proofs _ _ ready.2

/-- An `Invalid` for a fork-choice update has grounds. -/
private theorem ConsensusEngine.Chooses.grounds (hlawful : X.invalidHeaderCache.Lawful)
    {state : ForkchoiceState} {payloadAttrs : Option PayloadAttributes} {tx : ℕ} {version : UInt8}
    (h : Chooses σ engine state payloadAttrs tx version engine')
    (hfed : FedBy feed engine.tree.blockBuffer) {sent : List Response}
    (hsent : engine'.responses = engine.responses ++ sent) {updated : OnForkChoiceUpdated}
    (hmem : .forkchoice tx (.ok updated) ∈ sent) {status : PayloadStatus}
    (hstatus : updated = .valid status ∨ updated = .withInvalid status) {message : String}
    (hinvalid : status.status = .invalid message) :
    Grounds feed engine.tree state.headBlockHash := by
  cases h with
  | @answered result tree' handled _ _ responses =>
      have heq := mem_of_sent hsent responses hmem
      cases result with
      | error => cases heq
      | ok outcome =>
          cases heq
          have hupdates :=
            EngineTree.onForkchoiceUpdated_cases σ engine.tree state payloadAttrs version
          rw [handled] at hupdates
          exact .of_updates hlawful hfed hupdates hstatus hinvalid

/-- **Every event has grounds** for the `Invalid` it answers, in the state it finds. -/
theorem ConsensusEngine.Step.grounds (hlawful : X.invalidHeaderCache.Lawful)
    {event : Processed X.Proof} (step : Step engine event engine')
    (hprovides : feed.Provides event) (hfed : FedBy feed engine.tree.blockBuffer) {hash : B256}
    {status : PayloadStatus} {message : String}
    (answers : AnswersBlock engine event engine' hash status)
    (hinvalid : status.status = .invalid message) :
    Grounds feed (arrive engine.tree event) hash := by
  cases answers with
  | payload isPayload formed hash_eq responses answer =>
      subst isPayload hash_eq
      cases step with
      | message σ _ _ =>
          exact (onEngineMessage_newPayload σ engine _ _).grounds hlawful hprovides hfed formed
            responses answer hinvalid
  | @parked data parked sent isOutcome isParked hash_eq responses answer =>
      subst isOutcome hash_eq
      cases step with
      | outcome σ _ handled =>
          cases onDownloadOutcome_cases handled with
          | dropped _ same =>
              rw [same] at responses
              exact absurd answer (not_sent responses)
          | stored unlocks =>
              have hgrounds := unlocks.grounds hlawful (FedBy.store hfed hprovides) isParked
                responses answer hinvalid
              -- storing the data of a block or a proof touches the buffer only
              have hstored := store_eq_receive engine.tree data
              refine hgrounds.of_eq ?_ ?_
              · rw [hstored]
                rfl
              · rw [hstored]
                rfl
  | head isUpdate hash_eq responses answer hstatus =>
      subst isUpdate hash_eq
      cases step with
      | message σ _ _ =>
          exact (onEngineMessage_forkchoiceUpdated σ engine _ _ _ _).grounds hlawful hfed responses
            answer hstatus hinvalid

end Events

/-! ## The property of runs -/

/-- **Grounded verdicts** in a state of a run, and at the next event. -/
structure GroundedVerdicts (feed : Feed X) (genesis : Block) (trace : List (Processed X.Proof))
    (engine : ConsensusEngine X) : Prop where
  /-- What is remembered as invalid was rejected in this run, or descends from what was. -/
  remembered : ∀ hash, X.invalidHeaderCache.Cached engine.tree.invalidHeaders hash →
    Blamed (feed.within trace) (launch X genesis).tree engine.tree hash
  /-- So was what the next event answers `Invalid`, with the deliveries up to that event. -/
  answered : ∀ event engine', feed.Provides event → Step engine event engine' →
    ∀ hash status message, AnswersBlock engine event engine' hash status →
      status.status = .invalid message →
        Blamed (feed.within (trace ++ [event])) (launch X genesis).tree engine'.tree hash

/-- **Nothing is called invalid without a rejection**, in any run, with proofs from anyone. -/
theorem groundedVerdicts_of_run {genesis : Block} (hlawful : X.invalidHeaderCache.Lawful)
    {trace : List (Processed X.Proof)} {engine : ConsensusEngine X}
    (run : FedRun feed (launch X genesis) trace engine) :
    GroundedVerdicts feed genesis trace engine := by
  have hempty : ∀ hash,
      ¬X.invalidHeaderCache.Cached (launch X genesis).tree.invalidHeaders hash := by
    rintro hash ⟨entry, hget⟩
    cases (hlawful.new_empty hash).symm.trans hget
  constructor
  · intro hash hcached
    obtain ⟨⟨marks, history⟩, -⟩ := Run.history (fun _ _ met => met) run.within (.new _)
    exact .of_cached hlawful hempty history hash hcached
  · intro event engine' hprovides step hash status message answers hinvalid
    -- the run so far and the event, both with what has been delivered up to it
    have hrun : FedRun (feed.within (trace ++ [event])) (launch X genesis) trace engine :=
      run.mono fun _ _ hmem => Feed.provides_within (List.mem_append_left _ hmem)
    have hlast : (feed.within (trace ++ [event])).Provides event :=
      Feed.provides_within (List.mem_append_right _ List.mem_cons_self) hprovides
    obtain ⟨⟨marks, history⟩, hfed⟩ := Run.history (fun _ _ met => met) hrun (.new _)
    obtain ⟨marks', hsteps⟩ := (step.takes hfed hlast).steps
    have hgrounds := step.grounds hlawful hlast hfed answers hinvalid
    exact (hgrounds.blamed hlawful hempty (history.arrive hlast)).extend
      (History.start.steps hsteps)

namespace SmallWorld

/-- A payload without its proof is parked. -/
def parkedPayload : ConsensusEngine externals :=
  (launch externals (block 1 0 0)).onEngineMessage ascending (.newPayload (payload (block 2 1 1)) 0)

/-- Then an incomplete proof for it comes. -/
def condemnedPayload : ConsensusEngine externals :=
  (parkedPayload.onDownloadOutcome ascending (.proof 2 false)).2

theorem condemnedPayload_responses : ∃ message, condemnedPayload.responses
    = parkedPayload.responses ++ [.payload 0 (.ok ⟨.invalid message, some 1⟩)] :=
  ⟨_, rfl⟩

theorem parkedPayload_parked : parkedPayload.parkedPayload = some ⟨2, 0⟩ := by decide +kernel

theorem condemnedPayload_step : Step parkedPayload (.outcome (.proof 2 false)) condemnedPayload :=
  .outcome ascending _ rfl

/-- The payload is answered `Invalid`, and it is itself to blame. -/
theorem groundedVerdicts_of_incompleteProof :
    Blamed (forkFeed.within [.message (.newPayload (payload (block 2 1 1)) 0),
        .outcome (.proof 2 false)])
      (launch externals (block 1 0 0)).tree condemnedPayload.tree 2 := by
  have hprovides : forkFeed.Provides (.message (.newPayload (payload (block 2 1 1)) 0)) := by
    decide +kernel
  have hrun : FedRun forkFeed (launch externals (block 1 0 0))
      ([] ++ [.message (.newPayload (payload (block 2 1 1)) 0)]) parkedPayload :=
    Run.start.step hprovides (.message ascending _ rfl)
  obtain ⟨message, hresponses⟩ := condemnedPayload_responses
  exact (groundedVerdicts_of_run cache_lawful hrun).answered _ _ (by decide +kernel)
    condemnedPayload_step 2 _ message
    (.parked rfl parkedPayload_parked rfl hresponses List.mem_cons_self) rfl

end SmallWorld

end ZkRess
