import ZkRess.Engine.Canonicalization
import ZkRess.Properties.PayloadResponses

/-!
# The event stream reports the tree

The node knows the tree by its events only.  Whatever is processed in whatever order, the
stream says where the canonical head is, which blocks have been verified, and how each
fork-choice update was answered (`Reported`).  One thing is not in it: a finalized download
moves the head and stores its block silently, so the head has to be taken from there when
one comes in.

The stream also shows that the engine picks no head of its own: every chain committed leads
to the head of a fork-choice update, the last one or the sync target (`HeadAnnounced`).
-/

namespace ZkRess

open Foundation ConsensusEngine EngineTree

variable {X : Externals}

/-! ## Reading the stream -/

namespace BeaconConsensusEngineEvent

/-- The tip of a committed chain. -/
def committed : BeaconConsensusEngineEvent → Option SealedHeader
  | .canonicalChainCommitted tip => some tip
  | _ => none

/-- A block added, on the canonical chain or on a fork. -/
def added : BeaconConsensusEngineEvent → Option Block
  | .forkBlockAdded block => some block
  | .canonicalBlockAdded block => some block
  | _ => none

/-- A fork choice, and how it was answered. -/
def chosen : BeaconConsensusEngineEvent → Option (ForkchoiceState × ForkchoiceStatus)
  | .forkchoiceUpdated state status => some (state, status)
  | _ => none

/-- The head after an event. -/
def headAfter (head : BlockNumHash) (event : BeaconConsensusEngineEvent) : BlockNumHash :=
  match event.committed with
  | some tip => tip.numHash
  | none => head

end BeaconConsensusEngineEvent

open BeaconConsensusEngineEvent

/-- **What justifies an event** other than a fork choice: an added block was verified under a
stored parent, and a committed chain leads to one of the given heads. -/
inductive Justified (X : Externals) (heads : Set B256) : BeaconConsensusEngineEvent → Prop
  | added {event block parent proof} {provider : ChainState X.Proof}
      (adds : event.added = some block)
      (connected : provider.sealedHeader block.parentHash = some parent)
      (passed : X.verify provider block parent proof = .ok ()) : Justified X heads event
  | committed {tip} (announced : tip.hash ∈ heads) :
      Justified X heads (.canonicalChainCommitted tip)

theorem Justified.mono {heads heads' : Set B256} (hsub : heads ⊆ heads')
    {event : BeaconConsensusEngineEvent} (h : Justified X heads event) :
    Justified X heads' event := by
  cases h with
  | added adds connected passed => exact .added adds connected passed
  | committed announced => exact .committed (hsub announced)

/-- No other event is about a fork choice. -/
theorem Justified.chosen_eq_none {heads : Set B256} {event : BeaconConsensusEngineEvent}
    (h : Justified X heads event) : event.chosen = none := by
  cases h with
  | added adds => cases event <;> first | rfl | cases adds
  | committed => rfl

theorem filterMap_chosen_of_justified {heads : Set B256}
    {emitted : List BeaconConsensusEngineEvent} (h : ∀ event ∈ emitted, Justified X heads event) :
    emitted.filterMap chosen = [] := by
  rw [List.filterMap_eq_nil_iff]
  exact fun event hmem => (h event hmem).chosen_eq_none

/-! ## What the tree emits -/

/-- The second tree is the first one, as far as these events tell: they move the head, and
they report the blocks that come in. -/
structure Emits (tree tree' : EngineTree X) (emitted : List BeaconConsensusEngineEvent) :
    Prop where
  events : tree'.events = tree.events ++ emitted
  head : tree'.canonicalHead = emitted.foldl headAfter tree.canonicalHead
  blocks : ∀ hash, tree'.provider.Contains hash →
    tree.provider.Contains hash ∨ ∃ block ∈ emitted.filterMap added, block.hash = hash

namespace Emits

variable {tree tree' tree'' : EngineTree X} {emitted emitted' : List BeaconConsensusEngineEvent}

theorem refl (tree : EngineTree X) : Emits tree tree [] :=
  ⟨(List.append_nil _).symm, rfl, fun _ => .inl⟩

theorem trans (h : Emits tree tree' emitted) (h' : Emits tree' tree'' emitted') :
    Emits tree tree'' (emitted ++ emitted') where
  events := by rw [h'.events, h.events, List.append_assoc]
  head := by rw [h'.head, h.head, List.foldl_append]
  blocks hash hstored := by
    rw [List.filterMap_append]
    rcases h'.blocks hash hstored with hold | ⟨block, hmem, hhash⟩
    · refine (h.blocks hash hold).imp_right ?_
      rintro ⟨block, hmem, hhash⟩
      exact ⟨block, List.mem_append_left _ hmem, hhash⟩
    · exact .inr ⟨block, List.mem_append_right _ hmem, hhash⟩

/-- Without an event, no block comes in and the head stays. -/
theorem of_same (events : tree'.events = tree.events)
    (head : tree'.canonicalHead = tree.canonicalHead)
    (blocks : ∀ hash, tree'.provider.Contains hash → tree.provider.Contains hash) :
    Emits tree tree' [] :=
  ⟨by rw [events, List.append_nil], head, fun hash hstored => .inl (blocks hash hstored)⟩

end Emits

/-- The events of an operation are justified by the given heads. -/
def Reports (heads : Set B256) (tree tree' : EngineTree X) : Prop :=
  ∃ emitted, Emits tree tree' emitted ∧ ∀ event ∈ emitted, Justified X heads event

namespace Reports

variable {heads : Set B256} {tree tree' tree'' : EngineTree X}

theorem of_same (events : tree'.events = tree.events)
    (head : tree'.canonicalHead = tree.canonicalHead)
    (blocks : ∀ hash, tree'.provider.Contains hash → tree.provider.Contains hash) :
    Reports heads tree tree' :=
  ⟨[], .of_same events head blocks, nofun⟩

theorem refl (tree : EngineTree X) : Reports heads tree tree := .of_same rfl rfl fun _ => id

theorem trans (h : Reports heads tree tree') (h' : Reports heads tree' tree'') :
    Reports heads tree tree'' := by
  obtain ⟨emitted, hemits, hjustified⟩ := h
  obtain ⟨emitted', hemits', hjustified'⟩ := h'
  refine ⟨emitted ++ emitted', hemits.trans hemits', fun event hmem => ?_⟩
  exact (List.mem_append.mp hmem).elim (hjustified event) (hjustified' event)

end Reports

namespace EngineTree

variable {heads : Set B256} {tree tree' : EngineTree X}

theorem Peeks.reports (h : Peeks tree tree') : Reports heads tree tree' := by
  rw [h.eq]
  exact .of_same rfl rfl fun _ => id

theorem Checks.reports {check head : B256} {status : Option PayloadStatus}
    (h : Checks tree check head status tree') : Reports heads tree tree' := by
  cases h with
  | clear peeks => exact peeks.reports
  | invalid peeks => exact peeks.reports.trans (.of_same rfl rfl fun _ => id)

theorem Fails.reports {block : Block} {error : InsertBlockErrorKind}
    {result : Except InsertBlockFatalError PayloadStatus}
    (h : Fails tree block error result tree') : Reports heads tree tree' := by
  cases h with
  | fatal => exact .refl tree
  | invalid _ peeks => exact peeks.reports.trans (.of_same rfl rfl fun _ => id)

/-- **A verified block is reported**, and nothing else is. -/
theorem Inserts.reports {block : Block} {maybeProof : Option X.Proof}
    {result : Except InsertBlockErrorKind InsertPayloadOk}
    (h : Inserts tree block maybeProof result tree') : Reports heads tree tree' := by
  cases h with
  | verified _ _ connected _ passed =>
      have hadds : ∀ isFork : Bool, (if isFork then BeaconConsensusEngineEvent.forkBlockAdded block
          else .canonicalBlockAdded block).added = some block := by
        rintro (_ | _) <;> rfl
      have hkeeps : ∀ isFork : Bool, (if isFork then BeaconConsensusEngineEvent.forkBlockAdded block
          else .canonicalBlockAdded block).headAfter tree.canonicalHead = tree.canonicalHead := by
        rintro (_ | _) <;> rfl
      refine ⟨[_], ⟨rfl, (hkeeps _).symm, fun hash hstored => ?_⟩, fun event hmem => ?_⟩
      · rcases ChainState.contains_insertBlock.mp hstored with rfl | hold
        · exact .inr ⟨block, List.mem_filterMap.mpr ⟨_, List.mem_cons_self, hadds _⟩, rfl⟩
        · exact .inl hold
      · obtain rfl := List.mem_singleton.mp hmem
        exact .added (hadds _) connected passed
  | alreadySeen => exact .refl tree
  | malformed => exact .refl tree
  | rejected => exact .refl tree
  | disconnected => exact .of_same rfl rfl fun _ => id
  | noProof => exact .of_same rfl rfl fun _ => id

/-- **A chain update is reported** with its tip. -/
theorem onCanonicalChainUpdate_reports {target : B256} {update : NewCanonicalChain}
    (found : tree.onNewHead target = some update) (htarget : target ∈ heads) :
    Reports heads tree (tree.onCanonicalChainUpdate update) := by
  refine ⟨[.canonicalChainCommitted update.tip], ⟨rfl, rfl, fun hash hstored => .inl ?_⟩, ?_⟩
  · obtain ⟨block, hget⟩ := hstored
    replace hget : (tree.provider.onChainUpdate update.new.headers update.old).blocksByHash.get hash
      = some block := hget
    rw [(ChainState.onChainUpdate_sameBlocks _ _ _).blocksByHash] at hget
    exact ⟨block, hget⟩
  · intro event hmem
    obtain rfl := List.mem_singleton.mp hmem
    have hhash : update.tip.hash = target := ChainState.hash_of_sealedHeader (onNewHead_tip found)
    exact .committed (hhash ▸ htarget)

theorem makeCanonical_reports (tree : EngineTree X) {target : B256} (htarget : target ∈ heads) :
    Reports heads tree (tree.makeCanonical target) := by
  unfold makeCanonical
  cases hupdate : tree.onNewHead target with
  | none => exact .refl tree
  | some update => exact onCanonicalChainUpdate_reports hupdate htarget

/-- The hash of the sync target, if there is one, is among the heads. -/
def TargetIn (heads : Set B256) (tree : EngineTree X) : Prop :=
  ∀ state, X.forkchoiceStateTracker.syncTargetState tree.forkchoiceStateTracker = some state →
    state.headBlockHash ∈ heads

theorem TargetIn.of_tracker (h : TargetIn heads tree)
    (htracker : tree'.forkchoiceStateTracker = tree.forkchoiceStateTracker) :
    TargetIn heads tree' := by
  unfold TargetIn
  rwa [htracker]

theorem TargetIn.mem (h : TargetIn heads tree) {hash : B256}
    (htarget : tree.isSyncTargetHead hash = true) : hash ∈ heads := by
  unfold isSyncTargetHead at htarget
  split at htarget
  · next state hstate =>
      rw [← of_decide_eq_true htarget]
      exact h state hstate
  · cases htarget

theorem Connects.reports {child : Block} {proof : X.Proof}
    {result : Except InsertBlockFatalError Unit} (h : Connects tree child proof result tree')
    (htarget : TargetIn heads tree) : Reports heads tree tree' := by
  cases h with
  | inserted inserts => exact inserts.reports
  | syncTarget inserts target =>
      exact inserts.reports.trans (makeCanonical_reports _
        ((htarget.of_tracker inserts.forkchoiceStateTracker).mem target))
  | failed inserts fails => exact inserts.reports.trans fails.reports
  | failedFatally inserts fails => exact inserts.reports.trans fails.reports

theorem tryConnectBufferedBlocks_reports (σ : SetOrder B256) (tree : EngineTree X)
    (parentHash : B256) (htarget : TargetIn heads tree) :
    Reports heads tree (tryConnectBufferedBlocks σ tree parentHash).2 := by
  obtain ⟨_, ⟨hreports, -⟩, -⟩ := connectBlocks_preserves
    (fun _ tree' => Reports heads tree tree' ∧ TargetIn heads tree')
    (fun h hconnects => ⟨h.1.trans (hconnects.reports h.2),
      h.2.of_tracker hconnects.forkchoiceStateTracker⟩)
    (tree.blockBuffer.removeBlockWithChildren σ parentHash).1
    (show Reports heads tree { tree with
        blockBuffer := (tree.blockBuffer.removeBlockWithChildren σ parentHash).2 } ∧
      TargetIn heads { tree with
        blockBuffer := (tree.blockBuffer.removeBlockWithChildren σ parentHash).2 }
      from ⟨.of_same rfl rfl fun _ => id, htarget⟩)
  exact hreports

theorem Handles.reports {σ : SetOrder B256} {check : B256} {block : Block}
    {maybeProof : Option X.Proof}
    {result : Except InsertBlockFatalError (TreeOutcome PayloadStatus)}
    (h : Handles σ tree check block maybeProof result tree') (htarget : TargetIn heads tree) :
    Reports heads tree tree' := by
  have hconnect : ∀ {tree₁ tree₂ tree₃ result r}, Checks tree check block.hash none tree₁ →
      Inserts tree₁ block maybeProof (.ok result) tree₂ →
        tryConnectBufferedBlocks σ tree₂ block.hash = (r, tree₃) → Reports heads tree tree₃ := by
    intro tree₁ tree₂ tree₃ result r checks inserts connects
    have hconnected := tryConnectBufferedBlocks_reports σ tree₂ block.hash
      ((htarget.of_tracker checks.forkchoiceStateTracker).of_tracker inserts.forkchoiceStateTracker)
    rw [connects] at hconnected
    exact (checks.reports.trans inserts.reports).trans hconnected
  cases h with
  | invalidAncestor checks => exact checks.reports
  | connected checks inserts _ connects => exact hconnect checks inserts connects
  | connectFailed checks inserts _ connects => exact hconnect checks inserts connects
  | seen checks inserts => exact checks.reports.trans inserts.reports
  | disconnected checks inserts => exact checks.reports.trans inserts.reports
  | noProof checks inserts => exact checks.reports.trans inserts.reports
  | failed checks inserts fails => exact (checks.reports.trans inserts.reports).trans fails.reports
  | failedFatally checks inserts fails =>
      exact (checks.reports.trans inserts.reports).trans fails.reports

/-- The one event with which a handler asks for a chain update is about the sync target. -/
theorem Handles.carryOut_reports {σ : SetOrder B256} {check : B256} {block : Block}
    {maybeProof : Option X.Proof}
    {result : Except InsertBlockFatalError (TreeOutcome PayloadStatus)}
    (h : Handles σ tree check block maybeProof result tree') (htarget : TargetIn heads tree) :
    Reports heads tree (tree'.carryOut (resultEvent result)) := by
  refine (h.reports htarget).trans ?_
  have hsync : ∀ {tree₁ : EngineTree X}, TargetIn heads tree₁ →
      Reports heads tree' (tree'.carryOut (tree₁.syncTargetEvent block.hash)) := by
    intro tree₁ htarget₁
    unfold syncTargetEvent
    split
    · next isTarget => exact makeCanonical_reports tree' (htarget₁.mem isTarget)
    · exact .refl tree'
  cases h with
  | @connected result tree₁ tree₂ tree₃ event checks inserts _ connects event_eq =>
      have htracker₂ : TargetIn heads tree₂ :=
        (htarget.of_tracker checks.forkchoiceStateTracker).of_tracker inserts.forkchoiceStateTracker
      have hkept := tryConnectBufferedBlocks_forkchoiceStateTracker σ tree₂ block.hash
      rw [connects] at hkept
      rcases event_eq with rfl | rfl
      · exact hsync htracker₂
      · exact hsync (htracker₂.of_tracker hkept)
  | invalidAncestor => exact .refl tree'
  | connectFailed => exact .refl tree'
  | seen => exact .refl tree'
  | disconnected => exact .refl tree'
  | noProof => exact .refl tree'
  | failed => exact .refl tree'
  | failedFatally => exact .refl tree'

theorem cleanUp_reports (σ : SetOrder B256) (tree : EngineTree X) (finalizedHash : B256) :
    Reports heads tree (cleanUp σ tree finalizedHash) := by
  refine .of_same ?_ ?_ fun hash hstored => ?_
  · unfold cleanUp
    simp only
    split <;> rfl
  · unfold cleanUp
    simp only
    split <;> rfl
  · rw [cleanUp_provider] at hstored
    exact ChainState.contains_of_onFinalized hstored

/-- A fork-choice update commits a chain to its own head only. -/
theorem Updates.reports {σ : SetOrder B256} {state : ForkchoiceState}
    {result : Except ProviderError (TreeOutcome OnForkChoiceUpdated)}
    (h : Updates σ tree state result tree') (hhead : state.headBlockHash ∈ heads) :
    Reports heads tree tree' := by
  cases h with
  | refused peeks => exact peeks.reports
  | atHead peeks => exact peeks.reports
  | inconsistent peeks _ found =>
      exact peeks.reports.trans (onCanonicalChainUpdate_reports found hhead)
  | applied peeks _ found =>
      exact (peeks.reports.trans (onCanonicalChainUpdate_reports found hhead)).trans
        (cleanUp_reports σ _ _)
  | known peeks => exact peeks.reports
  | syncing peeks => exact peeks.reports

/-- It asks for nothing but downloads. -/
theorem Updates.carryOut {σ : SetOrder B256} {state : ForkchoiceState}
    {result : Except ProviderError (TreeOutcome OnForkChoiceUpdated)}
    (h : Updates σ tree state result tree') (tree₁ : EngineTree X) :
    tree₁.carryOut (resultEvent result) = tree₁ := by
  cases h with
  | refused => rfl
  | atHead _ _ answer => cases answer <;> rfl
  | inconsistent => rfl
  | applied _ _ _ _ answer => rcases answer with rfl | rfl <;> rfl
  | known => rfl
  | syncing =>
      show tree₁.carryOut (syncDownload _ state) = tree₁
      unfold syncDownload
      simp only
      split
      · rfl
      · generalize lowestBufferedAncestorOr _ _ = target
        split <;> rfl

theorem Updates.forkchoiceStateTracker {σ : SetOrder B256} {state : ForkchoiceState}
    {result : Except ProviderError (TreeOutcome OnForkChoiceUpdated)}
    (h : Updates σ tree state result tree') :
    tree'.forkchoiceStateTracker = tree.forkchoiceStateTracker := by
  cases h with
  | refused peeks => exact peeks.forkchoiceStateTracker
  | atHead peeks => exact peeks.forkchoiceStateTracker
  | inconsistent peeks => exact peeks.forkchoiceStateTracker
  | applied peeks =>
      refine Eq.trans ?_ peeks.forkchoiceStateTracker
      unfold cleanUp
      simp only
      split <;> rfl
  | known peeks => exact peeks.forkchoiceStateTracker
  | syncing peeks => exact peeks.forkchoiceStateTracker

/-- The sync target is only ever moved to the state of the update. -/
theorem TargetIn.track (htracker : X.forkchoiceStateTracker.Lawful) (h : TargetIn heads tree)
    {state : ForkchoiceState} (hhead : state.headBlockHash ∈ heads)
    (result : Except ProviderError (TreeOutcome OnForkChoiceUpdated)) :
    TargetIn heads (tree.track state result) := by
  cases result with
  | error => exact h
  | ok outcome =>
      intro target htarget
      replace htarget : X.forkchoiceStateTracker.syncTargetState (X.forkchoiceStateTracker.setLatest
        tree.forkchoiceStateTracker state (X.forkchoiceStatus outcome.outcome)) = some target :=
        htarget
      cases hstatus : X.forkchoiceStatus outcome.outcome with
      | syncing =>
          rw [hstatus, htracker.syncing] at htarget
          exact Option.some.inj htarget ▸ hhead
      | valid =>
          rw [hstatus, htracker.valid] at htarget
          cases htarget
      | invalid =>
          rw [hstatus, htracker.invalid] at htarget
          exact h target htarget

end EngineTree

/-! ## What an event emits -/

/-- The fork-choice updates of a trace. -/
def updatesOf (trace : List (Processed X.Proof)) : List ForkchoiceState :=
  trace.filterMap fun
    | .message (.forkchoiceUpdated state _ _ _) => some state
    | _ => none

/-- The results sent for fork-choice updates. -/
def resultsOf (responses : List Response) : List ForkchoiceResult :=
  responses.filterMap fun
    | .forkchoice _ result => some result
    | .payload _ _ => none

/-- The updates that were answered with a status, with the status. -/
def choicesAnswered (X : Externals) (states : List ForkchoiceState)
    (results : List ForkchoiceResult) : List (ForkchoiceState × ForkchoiceStatus) :=
  (states.zip results).filterMap fun
    | (state, .ok updated) => some (state, X.forkchoiceStatus updated)
    | (_, .error _) => none

theorem updatesOf_concat (trace : List (Processed X.Proof)) (event : Processed X.Proof) :
    updatesOf (trace ++ [event]) = updatesOf trace ++ updatesOf [event] :=
  List.filterMap_append

theorem resultsOf_append (responses sent : List Response) :
    resultsOf (responses ++ sent) = resultsOf responses ++ resultsOf sent :=
  List.filterMap_append

theorem choicesAnswered_append {states states' : List ForkchoiceState}
    {results results' : List ForkchoiceResult} (hlength : results.length = states.length) :
    choicesAnswered X (states ++ states') (results ++ results')
      = choicesAnswered X states results ++ choicesAnswered X states' results' := by
  unfold choicesAnswered
  rw [List.zip_append hlength.symm, List.filterMap_append]

/-- The heads of the fork-choice updates of a trace. -/
def announcedHeads (trace : List (Processed X.Proof)) : Set B256 :=
  {hash | ∃ state ∈ updatesOf trace, state.headBlockHash = hash}

/-- **One event**: what it emits is justified, apart from the fork choices, and those are the
updates it answers. -/
structure StepReports (heads : Set B256) (engine engine' : ConsensusEngine X)
    (event : Processed X.Proof) : Prop where
  emits : ∃ quiet chosen, Emits (arrive engine.tree event) engine'.tree (quiet ++ chosen) ∧
    (∀ event ∈ quiet, Justified X heads event) ∧
    ∃ sent, engine'.responses = engine.responses ++ sent ∧
      (resultsOf sent).length = (updatesOf [event]).length ∧
      chosen = (choicesAnswered X (updatesOf [event]) (resultsOf sent)).map fun choice =>
        .forkchoiceUpdated choice.1 choice.2
  target : TargetIn heads engine'.tree

namespace StepReports

variable {heads : Set B256} {engine engine' : ConsensusEngine X} {event : Processed X.Proof}

/-- An event that answers no fork-choice update. -/
theorem of_reports (hevent : updatesOf [event] = [])
    (h : Reports heads (arrive engine.tree event) engine'.tree) {sent : List Response}
    (responses : engine'.responses = engine.responses ++ sent) (hsent : resultsOf sent = [])
    (target : TargetIn heads engine'.tree) : StepReports heads engine engine' event where
  emits := by
    obtain ⟨emitted, hemits, hjustified⟩ := h
    refine ⟨emitted, [], by rwa [List.append_nil], hjustified, sent, responses, ?_, ?_⟩
    · rw [hevent, hsent]
      rfl
    · rw [hevent, hsent]
      rfl
  target := target

end StepReports

section Events

variable {heads : Set B256} {engine engine' : ConsensusEngine X} {σ : SetOrder B256}

/-- Emissions from a state that differs in the buffer only. -/
private theorem Reports.of_buffer {tree tree' : EngineTree X} {buffer : BlockBuffer X.Proof}
    (h : Reports heads { tree with blockBuffer := buffer } tree') : Reports heads tree tree' :=
  have hsame : Reports heads tree { tree with blockBuffer := buffer } :=
    .of_same rfl rfl fun _ => id
  hsame.trans h

private theorem callNewPayload_reports {payload : ExecutionData} {tree' : EngineTree X}
    {result : Except InsertBlockFatalError (TreeOutcome PayloadStatus)}
    (handled : callNewPayload σ engine.tree payload = (result, tree'))
    (htarget : TargetIn heads engine.tree) :
    Reports heads engine.tree tree' ∧
      Reports heads engine.tree (tree'.carryOut (resultEvent result)) ∧
        tree'.forkchoiceStateTracker = engine.tree.forkchoiceStateTracker := by
  unfold callNewPayload at handled
  cases hformed : X.ensureWellFormedPayload payload with
  | error error =>
      obtain ⟨latestValidHash, tree₁, peeks, heq⟩ := onNewPayload_malformed σ
        { engine.tree with
          blockBuffer := (engine.tree.blockBuffer.removeProof payload.blockHash).2 }
        (engine.tree.blockBuffer.removeProof payload.blockHash).1 hformed
      rw [heq] at handled
      cases handled
      exact ⟨peeks.reports.of_buffer, peeks.reports.of_buffer, peeks.forkchoiceStateTracker⟩
  | ok block =>
      have hhandles := onNewPayload_cases σ
        { engine.tree with
          blockBuffer := (engine.tree.blockBuffer.removeProof payload.blockHash).2 }
        (engine.tree.blockBuffer.removeProof payload.blockHash).1 hformed
      rw [handled] at hhandles
      exact ⟨(hhandles.reports (htarget.of_tracker rfl)).of_buffer,
        (hhandles.carryOut_reports (htarget.of_tracker rfl)).of_buffer,
        hhandles.forkchoiceStateTracker⟩

private theorem ConsensusEngine.Receives.reports {payload : ExecutionData} {tx : ℕ}
    (h : Receives σ engine payload tx engine') (htarget : TargetIn heads engine.tree) :
    StepReports heads engine engine' (.message (.newPayload payload tx)) := by
  cases h with
  | parked handled _ _ tree _ responses =>
      obtain ⟨hreports, -, htracker⟩ := callNewPayload_reports handled htarget
      refine .of_reports rfl ?_ (responses.trans (List.append_nil _).symm) rfl ?_
      · rw [tree]
        exact hreports
      · rw [tree]
        exact htarget.of_tracker htracker
  | answered handled tree _ responses =>
      obtain ⟨-, hreports, htracker⟩ := callNewPayload_reports handled htarget
      refine .of_reports rfl ?_ responses rfl ?_
      · rw [tree]
        exact hreports
      · rw [tree]
        exact htarget.of_tracker ((carryOut_forkchoiceStateTracker _ _).trans htracker)

private theorem ConsensusEngine.Chooses.reports (htracker : X.forkchoiceStateTracker.Lawful)
    {state : ForkchoiceState} {payloadAttrs : Option PayloadAttributes} {tx : ℕ} {version : UInt8}
    (h : Chooses σ engine state payloadAttrs tx version engine')
    (htarget : TargetIn heads engine.tree) (hhead : state.headBlockHash ∈ heads) :
    StepReports heads engine engine'
      (.message (.forkchoiceUpdated state payloadAttrs tx version)) := by
  cases h with
  | @answered result tree' handled tree _ responses =>
      have hupdates := onForkchoiceUpdated_cases σ engine.tree state payloadAttrs version
      rw [handled] at hupdates
      have htracked : TargetIn heads tree' := htarget.of_tracker hupdates.forkchoiceStateTracker
      rw [hupdates.carryOut] at tree
      obtain ⟨emitted, hemits, hjustified⟩ := hupdates.reports hhead
      refine ⟨?_, tree ▸ htracked.track htracker hhead result⟩
      -- the update itself is reported last, unless it ended with an error
      have hlast : Emits tree' (tree'.track state result)
          ((choicesAnswered X [state] [result.map TreeOutcome.outcome]).map fun choice =>
            .forkchoiceUpdated choice.1 choice.2) := by
        cases result with
        | error => exact .refl tree'
        | ok outcome => exact ⟨rfl, rfl, fun _ => .inl⟩
      exact ⟨emitted, _, tree ▸ hemits.trans hlast, hjustified, _, responses, rfl, rfl⟩

private theorem ConsensusEngine.Unlocks.reports {hash : B256}
    (h : Unlocks σ engine hash engine') (htarget : TargetIn heads engine.tree) :
    Reports heads engine.tree engine'.tree ∧ TargetIn heads engine'.tree ∧
      ∃ sent, engine'.responses = engine.responses ++ sent ∧ resultsOf sent = [] := by
  cases h with
  | locked _ same =>
      rw [same]
      exact ⟨.refl _, htarget, [], (List.append_nil _).symm, rfl⟩
  | @handled block proof result tree' ready handled tree answers =>
      have hhandles := onDownloadedBlock_cases σ (takeOut engine.tree hash block) block proof
      rw [handled] at hhandles
      have htaken : TargetIn heads (takeOut engine.tree hash block) := htarget.of_tracker rfl
      refine ⟨?_, ?_, ?_⟩
      · rw [tree]
        exact (hhandles.carryOut_reports htaken).of_buffer
      · rw [tree]
        exact htaken.of_tracker ((carryOut_forkchoiceStateTracker _ _).trans
          hhandles.forkchoiceStateTracker)
      · cases answers with
        | answered _ _ _ responses => exact ⟨_, responses, rfl⟩
        | unrelated _ _ responses =>
            exact ⟨[], responses.trans (List.append_nil _).symm, rfl⟩

/-- **Every event reports** what it does. -/
theorem ConsensusEngine.Step.reports (htracker : X.forkchoiceStateTracker.Lawful)
    {event : Processed X.Proof} (step : Step engine event engine')
    (htarget : TargetIn heads engine.tree)
    (hheads : ∀ state ∈ updatesOf [event], state.headBlockHash ∈ heads) :
    StepReports heads engine engine' event := by
  cases step with
  | timeout parked =>
      exact .of_reports rfl (.refl _) rfl rfl (htarget.of_tracker rfl)
  | message σ message =>
      cases message with
      | newPayload payload tx =>
          exact (onEngineMessage_newPayload σ engine payload tx).reports htarget
      | forkchoiceUpdated state payloadAttrs tx version =>
          exact (onEngineMessage_forkchoiceUpdated σ engine state payloadAttrs tx version).reports
            htracker htarget (hheads state List.mem_cons_self)
  | outcome σ data handled =>
      have hstored :
          Reports heads (arrive engine.tree (.outcome data)) (store engine.tree data) := by
        show Reports heads (receive engine.tree data) _
        rw [store_eq_receive]
        exact .of_same rfl rfl fun _ => id
      cases onDownloadOutcome_cases handled with
      | @dropped block isBlock same =>
          subst isBlock
          rw [same]
          exact .of_reports rfl (.refl _) (List.append_nil _).symm rfl htarget
      | stored unlocks =>
          have htarget' : TargetIn heads (store engine.tree data) :=
            htarget.of_tracker (by cases data <;> rfl)
          obtain ⟨hreports, hkept, sent, responses, hsent⟩ := unlocks.reports htarget'
          exact .of_reports rfl (hstored.trans hreports) responses hsent hkept

end Events

/-! ## What a run emits -/

/-- A finalized block came in. -/
def Finalizes (event : Processed X.Proof) (block : Block) : Prop :=
  ∃ ancestors, event = .outcome (.finalizedBlock block ancestors)

/-- Where the head is read off: at genesis, or at the last finalized download, and from there
on from the events. -/
inductive HeadReported (genesis : Block) (trace : List (Processed X.Proof))
    (tree : EngineTree X) : Prop
  | launched (none : ∀ event ∈ trace, ∀ block, ¬Finalizes event block)
      (head : tree.canonicalHead = tree.events.foldl headAfter genesis.numHash)
  | finalized {before event after block earlier recent} (last : trace = before ++ event :: after)
      (finalizes : Finalizes event block) (none : ∀ event ∈ after, ∀ block, ¬Finalizes event block)
      (events : tree.events = earlier ++ recent)
      (head : tree.canonicalHead = recent.foldl headAfter block.numHash)

/-- **The event stream reports the tree** in a state reached with this trace. -/
structure Reported (genesis : Block) (trace : List (Processed X.Proof))
    (engine : ConsensusEngine X) : Prop where
  head : HeadReported genesis trace engine.tree
  /-- Stored blocks are genesis, finalized by a download, or reported. -/
  blocks : ∀ hash, engine.tree.provider.Contains hash → hash = genesis.hash ∨
    (∃ event ∈ trace, ∃ block, Finalizes event block ∧ block.hash = hash) ∨
      ∃ block ∈ engine.tree.events.filterMap added, block.hash = hash
  /-- Every event but the fork choices is justified: reported blocks are verified, and chains
  are committed to announced heads. -/
  justified : ∀ event ∈ engine.tree.events, event.chosen = none →
    Justified X (announcedHeads trace) event
  /-- The fork choices reported are the updates answered with a status, in their order. -/
  choices : engine.tree.events.filterMap chosen
    = choicesAnswered X (updatesOf trace) (resultsOf engine.responses)
  /-- Every update is answered in its own event. -/
  answered : (resultsOf engine.responses).length = (updatesOf trace).length

/-- Reported fork choices can be read back. -/
private theorem filterMap_chosen_reported (choices : List (ForkchoiceState × ForkchoiceStatus)) :
    (choices.map fun choice =>
      BeaconConsensusEngineEvent.forkchoiceUpdated choice.1 choice.2).filterMap chosen
        = choices := by
  induction choices with
  | nil => rfl
  | cons choice choices ih => exact congrArg (choice :: ·) ih

theorem announcedHeads_subset (trace : List (Processed X.Proof)) (event : Processed X.Proof) :
    announcedHeads trace ⊆ announcedHeads (trace ++ [event]) := by
  rintro _ ⟨state, hmem, rfl⟩
  refine ⟨state, ?_, rfl⟩
  rw [updatesOf_concat]
  exact List.mem_append_left _ hmem

/-! ### One more event -/

theorem arrive_events (tree : EngineTree X) (event : Processed X.Proof) :
    (arrive tree event).events = tree.events := by
  match event with
  | .outcome (.finalizedBlock _ _) => rfl
  | .outcome (.fullBlock _) => rfl
  | .outcome (.proof _ _) => rfl
  | .message _ => rfl
  | .timeout _ => rfl

/-- Only a finalized download moves the head on arrival. -/
theorem arrive_of_not_finalizes (tree : EngineTree X) {event : Processed X.Proof}
    (h : ∀ block, ¬Finalizes event block) : arrive tree event = tree := by
  match event, h with
  | .outcome (.finalizedBlock block ancestors), h => exact absurd ⟨ancestors, rfl⟩ (h block)
  | .outcome (.fullBlock _), _ => rfl
  | .outcome (.proof _ _), _ => rfl
  | .message _, _ => rfl
  | .timeout _, _ => rfl

/-- And only its block is stored then. -/
theorem contains_arrive {tree : EngineTree X} {event : Processed X.Proof} {hash : B256}
    (h : (arrive tree event).provider.Contains hash) :
    tree.provider.Contains hash ∨ ∃ block, Finalizes event block ∧ block.hash = hash := by
  by_cases hfinal : ∃ block, Finalizes event block
  · obtain ⟨block, ancestors, rfl⟩ := hfinal
    rcases contains_insertFinalized.mp h with rfl | hold
    · exact .inr ⟨block, ⟨ancestors, rfl⟩, rfl⟩
    · exact .inl hold
  · rw [arrive_of_not_finalizes tree fun block hfinalizes => hfinal ⟨block, hfinalizes⟩] at h
    exact .inl h

/-- A finalized download starts the report of the head anew, any other event goes on with
it. -/
private theorem HeadReported.step {genesis : Block} {trace : List (Processed X.Proof)}
    {event : Processed X.Proof} {tree tree' : EngineTree X}
    {emitted : List BeaconConsensusEngineEvent} (h : HeadReported genesis trace tree)
    (hemits : Emits (arrive tree event) tree' emitted) :
    HeadReported genesis (trace ++ [event]) tree' := by
  have hevents := hemits.events
  rw [arrive_events] at hevents
  by_cases hfinal : ∃ block, Finalizes event block
  · obtain ⟨block, ancestors, rfl⟩ := hfinal
    exact .finalized rfl ⟨ancestors, rfl⟩ nofun hevents hemits.head
  · have hnot : ∀ block, ¬Finalizes event block := fun block h => hfinal ⟨block, h⟩
    have hnone : ∀ {events : List (Processed X.Proof)},
        (∀ event ∈ events, ∀ block, ¬Finalizes event block) →
          ∀ event' ∈ events ++ [event], ∀ block, ¬Finalizes event' block := by
      intro events none event' hmem
      rcases List.mem_append.mp hmem with hold | hlast
      · exact none event' hold
      · rwa [List.mem_singleton.mp hlast]
    have hhead := hemits.head
    rw [arrive_of_not_finalizes tree hnot] at hhead
    cases h with
    | launched none head =>
        refine .launched (hnone none) ?_
        rw [hhead, head, hevents]
        exact List.foldl_append.symm
    | @finalized before event₀ after block earlier recent last finalizes none events head =>
        have hlast : trace ++ [event] = before ++ event₀ :: (after ++ [event]) := by
          rw [last, List.append_assoc, List.cons_append]
        rw [events, List.append_assoc] at hevents
        refine .finalized hlast finalizes (hnone none) hevents ?_
        rw [hhead, head]
        exact List.foldl_append.symm

/-- **One event keeps the report complete.** -/
private theorem Reported.step {genesis : Block} {trace : List (Processed X.Proof)}
    {engine engine' : ConsensusEngine X} {event : Processed X.Proof}
    (h : Reported genesis trace engine)
    (hreports : StepReports (announcedHeads (trace ++ [event])) engine engine' event) :
    Reported genesis (trace ++ [event]) engine' := by
  obtain ⟨quiet, _, hemits, hquiet, sent, hsent, hlength, rfl⟩ := hreports.emits
  have hevents := hemits.events
  rw [arrive_events] at hevents
  refine ⟨h.head.step hemits, fun hash hstored => ?_, fun event' hmem hnone => ?_, ?_, ?_⟩
  · rw [hevents, List.filterMap_append]
    rcases hemits.blocks hash hstored with hold | ⟨block, hmem, hhash⟩
    · rcases contains_arrive hold with hold | ⟨block, hfinalizes, hhash⟩
      · rcases h.blocks hash hold with rfl | ⟨event', hmem, hfinal⟩ | ⟨block, hmem, hhash⟩
        · exact .inl rfl
        · exact .inr (.inl ⟨event', List.mem_append_left _ hmem, hfinal⟩)
        · exact .inr (.inr ⟨block, List.mem_append_left _ hmem, hhash⟩)
      · exact .inr (.inl ⟨event, List.mem_append_right _ List.mem_cons_self, block, hfinalizes,
          hhash⟩)
    · exact .inr (.inr ⟨block, List.mem_append_right _ hmem, hhash⟩)
  · rw [hevents] at hmem
    rcases List.mem_append.mp hmem with hold | hnew
    · exact (h.justified event' hold hnone).mono (announcedHeads_subset trace event)
    · rcases List.mem_append.mp hnew with hnew | hnew
      · exact hquiet event' hnew
      · obtain ⟨choice, -, rfl⟩ := List.mem_map.mp hnew
        cases hnone
  · rw [hevents, List.filterMap_append, List.filterMap_append,
      filterMap_chosen_of_justified hquiet, filterMap_chosen_reported, h.choices, hsent,
      updatesOf_concat]
    rw [resultsOf_append, choicesAnswered_append h.answered, List.nil_append]
  · rw [hsent, resultsOf_append, updatesOf_concat, List.length_append, List.length_append,
      h.answered, hlength]

private theorem Reported.of_run (htracker : X.forkchoiceStateTracker.Lawful) {genesis : Block}
    {trace : List (Processed X.Proof)} {engine : ConsensusEngine X}
    (run : Run Any (launch X genesis) trace engine) :
    Reported genesis trace engine ∧ TargetIn (announcedHeads trace) engine.tree := by
  induction run with
  | start =>
      refine ⟨⟨.launched nofun rfl, fun hash hstored => .inl ?_, nofun, rfl, rfl⟩,
        fun state htarget => ?_⟩
      · obtain ⟨block, hget⟩ := hstored
        rw [launch_get] at hget
        by_contra hne
        rw [if_neg hne] at hget
        cases hget
      · replace htarget : X.forkchoiceStateTracker.syncTargetState
          X.forkchoiceStateTracker.default = some state := htarget
        rw [htracker.default_none] at htarget
        cases htarget
  | polled _ _ ih => exact ⟨⟨ih.1.head, ih.1.blocks, ih.1.justified, ih.1.choices,
      ih.1.answered⟩, ih.2⟩
  | @step trace engine event engine' _ _ step ih =>
      obtain ⟨hreported, htarget⟩ := ih
      have hsub := announcedHeads_subset trace event
      have hstep := step.reports htracker
        (fun state hstate => hsub (htarget state hstate)) fun state hmem =>
          ⟨state, by rw [updatesOf_concat]; exact List.mem_append_right _ hmem, rfl⟩
      exact ⟨hreported.step hstep, hstep.target⟩

/-- The head after some events is the one before them, or the tip of a chain committed. -/
theorem foldl_headAfter_mem (head : BlockNumHash) (events : List BeaconConsensusEngineEvent) :
    events.foldl headAfter head = head ∨
      ∃ tip, .canonicalChainCommitted tip ∈ events ∧ events.foldl headAfter head = tip.numHash := by
  induction events generalizing head with
  | nil => exact .inl rfl
  | cons event events ih =>
      rcases ih (headAfter head event) with hsame | ⟨tip, hmem, htip⟩
      · cases event with
        | canonicalChainCommitted tip => exact .inr ⟨tip, List.mem_cons_self, hsame⟩
        | forkBlockAdded => exact .inl hsame
        | canonicalBlockAdded => exact .inl hsame
        | forkchoiceUpdated => exact .inl hsame
      · exact .inr ⟨tip, List.mem_cons_of_mem _ hmem, htip⟩

/-- **The canonical head was announced**: it is genesis, a finalized download, or the head of
a fork-choice update. -/
def HeadAnnounced (genesis : Block) (trace : List (Processed X.Proof)) (head : BlockNumHash) :
    Prop :=
  head = genesis.numHash ∨ (∃ event ∈ trace, ∃ block, Finalizes event block ∧
    head = block.numHash) ∨ head.hash ∈ announcedHeads trace

/-- **The engine picks no head of its own**, whatever blocks and proofs it is given and whatever
is polled in whatever order. -/
theorem headAnnounced_of_polls (htracker : X.forkchoiceStateTracker.Lawful) {genesis : Block}
    {trace : List (Processed X.Proof)} {engine : ConsensusEngine X}
    (polls : Polls (launch X genesis) trace engine) :
    HeadAnnounced genesis trace engine.tree.canonicalHead := by
  have hreported := (Reported.of_run htracker (Run.of_poll polls)).1
  have hcommitted : ∀ tip, .canonicalChainCommitted tip ∈ engine.tree.events →
      tip.hash ∈ announcedHeads trace := by
    intro tip hmem
    cases hreported.justified _ hmem rfl with
    | added adds => cases adds
    | committed announced => exact announced
  cases hreported.head with
  | launched _ head =>
      rcases foldl_headAfter_mem genesis.numHash engine.tree.events with hsame | ⟨tip, hmem, htip⟩
      · exact .inl (head.trans hsame)
      · rw [HeadAnnounced, head, htip]
        exact .inr (.inr (hcommitted tip hmem))
  | @finalized before event after block earlier recent last finalizes _ events head =>
      rcases foldl_headAfter_mem block.numHash recent with hsame | ⟨tip, hmem, htip⟩
      · refine .inr (.inl ⟨event, ?_, block, finalizes, head.trans hsame⟩)
        rw [last]
        exact List.mem_append_right _ List.mem_cons_self
      · rw [HeadAnnounced, head, htip]
        exact .inr (.inr (hcommitted tip (events ▸ List.mem_append_right _ hmem)))

namespace SmallWorld

/-- A round that is offered nothing but the complete proofs asked for. -/
def prove : PollInput externals :=
  ⟨⟨fun _ => none, fun _ => some true, fun _ => none⟩, false, none, ascending⟩

/-- A payload is parked, its proof comes, and then it becomes the head. -/
def chosenTrace : List (Processed externals.Proof) :=
  [.message (.newPayload (payload (block 2 1 1)) 7)] ++ [.outcome (.proof 2 true)] ++
    [.message (.forkchoiceUpdated ⟨2, 0, 0⟩ none 6 0)]

/-- The engine after it. -/
def chosenEngine : ConsensusEngine externals :=
  [offer (.newPayload (payload (block 2 1 1)) 7), prove,
      offer (.forkchoiceUpdated ⟨2, 0, 0⟩ none 6 0)].foldl
    (fun engine input => (poll input engine).2.2) (launch externals (block 1 0 0))

theorem chosen_polls : Polls (launch externals (block 1 0 0)) chosenTrace chosenEngine := by
  have hparked : Polls (launch externals (block 1 0 0)) _ _ :=
    .round .start (offer (.newPayload (payload (block 2 1 1)) 7)) nofun
  have hproved := hparked.round prove nofun
  exact hproved.round (offer (.forkchoiceUpdated ⟨2, 0, 0⟩ none 6 0)) nofun

/-- The head is the block chosen. -/
theorem headAnnounced_of_choice : chosenEngine.tree.canonicalHead = ⟨1, 2⟩ ∧
    HeadAnnounced (block 1 0 0) chosenTrace chosenEngine.tree.canonicalHead :=
  ⟨by decide +kernel, headAnnounced_of_polls tracker_lawful chosen_polls⟩

end SmallWorld

end ZkRess
