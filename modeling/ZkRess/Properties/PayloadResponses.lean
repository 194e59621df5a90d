import ZkRess.Engine.EngineCases
import ZkRess.Engine.SmallWorld

/-!
# Answers to new payloads

The request/response protocol of new payloads, over every sequence of rounds of
`poll`.  `Serves` lists what one event can do to the parked payload and to the
responses; from it follows, by induction over the run, that the requests
processed are exactly those answered together with the parked one, each of them
once.

A request is known by its reply channel.  That two requests have two channels is
the one thing the engine relies on, and the results that count responses to one
channel say so.
-/

namespace ZkRess

open Foundation

variable {X : Externals}

namespace ConsensusEngine

/-- The reply channels of the new payloads in a trace. -/
def requests (trace : List (Processed X.Proof)) : List ℕ :=
  trace.filterMap fun
    | .message (.newPayload _ tx) => some tx
    | _ => none

/-- The reply channels that new payloads were answered on. -/
def answered (responses : List Response) : List ℕ :=
  responses.filterMap fun
    | .payload tx _ => some tx
    | .forkchoice _ _ => none

/-- The reply channel that waits. -/
def waiting (engine : ConsensusEngine X) : List ℕ :=
  (engine.parkedPayload.map ParkedPayload.tx).toList

/-! ## What one event does -/

/-- **One event**, as far as new payloads are concerned. -/
inductive Serves (engine : ConsensusEngine X) :
    Processed X.Proof → ConsensusEngine X → Prop
  /-- A new payload is parked under its own hash. -/
  | parks {payload tx engine'} (unparked : engine.parkedPayload = none)
      (parks : engine'.parkedPayload = some ⟨payload.blockHash, tx⟩)
      (responses : engine'.responses = engine.responses) :
      Serves engine (.message (.newPayload payload tx)) engine'
  /-- A new payload is answered with the result of handling it. -/
  | answers {payload tx engine'} (unparked : engine.parkedPayload = none)
      (stillUnparked : engine'.parkedPayload = none) (σ : SetOrder B256)
      (responses : engine'.responses = engine.responses ++
        [.payload tx (payloadResult (callNewPayload σ engine.tree payload).1)]) :
      Serves engine (.message (.newPayload payload tx)) engine'
  /-- A fork-choice update is answered. -/
  | updates {state payloadAttrs tx version engine' result} (unparked : engine.parkedPayload = none)
      (stillUnparked : engine'.parkedPayload = none)
      (responses : engine'.responses = engine.responses ++ [.forkchoice tx result]) :
      Serves engine (.message (.forkchoiceUpdated state payloadAttrs tx version)) engine'
  /-- The block of the parked payload has come together with its proof; it is
  handled, and the payload is answered with the result. -/
  | unlocks {data parked engine'} (isParked : engine.parkedPayload = some parked)
      (unparks : engine'.parkedPayload = none) (σ : SetOrder B256) (block : Block)
      (proof : X.Proof)
      (ready : (store engine.tree data).blockBuffer.Ready (unlockedHash data) block proof)
      (own : block.hash = parked.blockHash)
      (responses : engine'.responses = engine.responses ++ [.payload parked.tx
        (payloadResult (EngineTree.onDownloadedBlock σ
          (takeOut (store engine.tree data) (unlockedHash data) block) block proof).1)]) :
      Serves engine (.outcome data) engine'
  /-- Another block is handled, or none. -/
  | delivers {data engine'} (parkedPayload : engine'.parkedPayload = engine.parkedPayload)
      (responses : engine'.responses = engine.responses) : Serves engine (.outcome data) engine'
  /-- The parked payload is answered with `Syncing`. -/
  | timesOut {parked engine'} (isParked : engine.parkedPayload = some parked)
      (unparks : engine'.parkedPayload = none)
      (responses : engine'.responses = engine.responses ++
        [.payload parked.tx (.ok ⟨.syncing, none⟩)]) :
      Serves engine (.timeout parked) engine'

/-- A new payload asks for a proof only for its own block. -/
theorem callNewPayload_downloadProof (hhashes : X.PayloadHashes) {σ : SetOrder B256}
    {tree tree' : EngineTree X} {payload : ExecutionData} {outcome : TreeOutcome PayloadStatus}
    {blockHash : B256} (h : callNewPayload σ tree payload = (.ok outcome, tree'))
    (hevent : outcome.event = some (.downloadProof blockHash)) : blockHash = payload.blockHash := by
  unfold callNewPayload at h
  cases hformed : X.ensureWellFormedPayload payload with
  | error error =>
      obtain ⟨latestValidHash, tree₁, -, heq⟩ := EngineTree.onNewPayload_malformed σ
        { tree with blockBuffer := (tree.blockBuffer.removeProof payload.blockHash).2 }
        (tree.blockBuffer.removeProof payload.blockHash).1 hformed
      rw [heq] at h
      cases h
      cases hevent
  | ok block =>
      have hhandles := EngineTree.onNewPayload_cases σ
        { tree with blockBuffer := (tree.blockBuffer.removeProof payload.blockHash).2 }
        (tree.blockBuffer.removeProof payload.blockHash).1 hformed
      rw [h] at hhandles
      cases hhandles with
      | noProof =>
          cases hevent
          exact hhashes payload block hformed
      | connected _ _ _ _ event_eq =>
          -- the only event of a connected block asks to make it canonical
          have hsync : ∀ tree₁ : EngineTree X,
              some (TreeEvent.downloadProof blockHash) ≠ tree₁.syncTargetEvent block.hash := by
            intro tree₁ heq
            unfold EngineTree.syncTargetEvent at heq
            split at heq <;> cases heq
          simp only at hevent
          subst hevent
          rcases event_eq with heq | heq <;> exact absurd heq (hsync _)
      | invalidAncestor => cases hevent
      | seen => cases hevent
      | disconnected => cases hevent
      | failed => cases hevent

/-- **Every event serves.** -/
theorem Step.serves (hhashes : X.PayloadHashes) {engine engine' : ConsensusEngine X}
    {event : Processed X.Proof} (step : Step engine event engine') :
    Serves engine event engine' := by
  cases step with
  | timeout parked isParked => exact .timesOut isParked rfl rfl
  | message σ message unparked =>
      cases message with
      | newPayload payload tx =>
          cases onEngineMessage_newPayload σ engine payload tx with
          | parked handled _ event _ parkedPayload responses =>
              have hown := callNewPayload_downloadProof hhashes handled event
              exact .parks unparked (hown ▸ parkedPayload) responses
          | answered handled _ parkedPayload responses =>
              refine .answers unparked (parkedPayload.trans unparked) σ ?_
              rwa [handled]
      | forkchoiceUpdated state payloadAttrs tx version =>
          cases onEngineMessage_forkchoiceUpdated σ engine state payloadAttrs tx version with
          | answered _ _ parkedPayload responses =>
              exact .updates unparked (parkedPayload.trans unparked) responses
  | outcome σ data handled =>
      cases onDownloadOutcome_cases handled with
      | dropped _ same => exact .delivers (by rw [same]) (by rw [same])
      | stored unlocks =>
          cases unlocks with
          | locked _ same => exact .delivers (by rw [same]) (by rw [same])
          | @handled block proof _ _ ready handled _ answers =>
              cases answers with
              | unrelated _ parkedPayload responses => exact .delivers parkedPayload responses
              | answered wasParked own parkedPayload responses =>
                  refine .unlocks wasParked parkedPayload σ block proof ready
                    ((BlockBuffer.hash_of_get ready.1).trans own.symm) ?_
                  rw [handled]
                  exact responses

/-! ## What a run does -/

/-- An event adds its request to those answered or waiting, and nothing else. -/
theorem Serves.accounted {engine engine' : ConsensusEngine X} {event : Processed X.Proof}
    (h : Serves engine event engine') :
    (answered engine'.responses ++ engine'.waiting).Perm
      (answered engine.responses ++ engine.waiting ++ requests [event]) := by
  cases h with
  | parks unparked parks responses => simp [waiting, requests, unparked, parks, responses]
  | answers unparked stillUnparked σ responses =>
      simp [waiting, requests, answered, unparked, stillUnparked, responses]
  | updates unparked stillUnparked responses =>
      simp [waiting, requests, answered, unparked, stillUnparked, responses]
  | unlocks isParked unparks _ _ _ _ _ responses =>
      simp [waiting, requests, answered, isParked, unparks, responses]
  | delivers parkedPayload responses => simp [waiting, requests, parkedPayload, responses]
  | timesOut isParked unparks responses =>
      simp [waiting, requests, answered, isParked, unparks, responses]

/-- A parked payload is there because of a request for its block. -/
theorem Serves.parked {engine engine' : ConsensusEngine X} {event : Processed X.Proof}
    (h : Serves engine event engine') {parked : ParkedPayload}
    (hparked : engine'.parkedPayload = some parked) :
    engine.parkedPayload = some parked ∨ ∃ payload,
      event = .message (.newPayload payload parked.tx) ∧
        payload.blockHash = parked.blockHash := by
  cases h with
  | parks _ parks =>
      rw [parks] at hparked
      cases hparked
      exact .inr ⟨_, rfl, rfl⟩
  | delivers parkedPayload => exact .inl (parkedPayload.symm.trans hparked)
  | answers _ unparked => cases unparked.symm.trans hparked
  | updates _ unparked => cases unparked.symm.trans hparked
  | unlocks _ unparked => cases unparked.symm.trans hparked
  | timesOut _ unparked => cases unparked.symm.trans hparked

/-- Around every event of its trace, a run splits into the run before, the step,
and the run after. -/
theorem Run.split {start engine : ConsensusEngine X} {trace : List (Processed X.Proof)}
    (run : Run Any start trace engine) :
    ∀ before event after, trace = before ++ event :: after → ∃ engine₁ engine₂,
      Run Any start before engine₁ ∧ Step engine₁ event engine₂ ∧ Run Any engine₂ after engine := by
  induction run with
  | start =>
      intro before event after h
      simp at h
  | polled _ downloader ih =>
      intro before event after h
      obtain ⟨engine₁, engine₂, hbefore, hstep, hafter⟩ := ih before event after h
      exact ⟨engine₁, engine₂, hbefore, hstep, hafter.polled downloader⟩
  | @step trace engine last engine' run met step ih =>
      intro before event after h
      rcases List.eq_nil_or_concat after with rfl | ⟨after', event', rfl⟩
      · obtain ⟨rfl, heq⟩ := List.append_inj' h rfl
        cases heq
        exact ⟨engine, engine', run, step, .start⟩
      · rw [List.concat_eq_append, ← List.cons_append, ← List.append_assoc] at h
        obtain ⟨hbegin, heq⟩ := List.append_inj' h rfl
        cases heq
        obtain ⟨engine₁, engine₂, hbefore, hstep, hafter⟩ := ih before event after' hbegin
        rw [List.concat_eq_append]
        exact ⟨engine₁, engine₂, hbefore, hstep, hafter.step met step⟩

/-- **The protocol of new payloads**, in a state reached with this trace. -/
structure PayloadProtocol (start : ConsensusEngine X) (trace : List (Processed X.Proof))
    (engine : ConsensusEngine X) : Prop where
  /-- The requests are those answered and the parked one. -/
  accounted : (answered engine.responses ++ engine.waiting).Perm (requests trace)
  /-- No request is answered twice. -/
  once : (requests trace).Nodup → (answered engine.responses).Nodup
  /-- The requests without a response are the parked one. -/
  unanswered : (requests trace).Nodup → ∀ tx,
    (tx ∈ requests trace ∧ tx ∉ answered engine.responses) ↔
      ∃ parked, engine.parkedPayload = some parked ∧ parked.tx = tx
  /-- The parked payload waits for the block it asked about. -/
  own : ∀ parked, engine.parkedPayload = some parked → ∃ payload,
    .message (.newPayload payload parked.tx) ∈ trace ∧ payload.blockHash = parked.blockHash
  /-- On the way, every event served: no message was handled while a payload was
  parked, and a parked payload stayed until it was answered. -/
  served : ∀ before event after, trace = before ++ event :: after → ∃ engine₁ engine₂,
    Run Any start before engine₁ ∧ Serves engine₁ event engine₂ ∧ Run Any engine₂ after engine

private theorem Run.accounted (hhashes : X.PayloadHashes) {provider : ChainState X.Proof}
    {genesis : BlockNumHash} {trace : List (Processed X.Proof)} {engine : ConsensusEngine X}
    (run : Run Any (.new provider genesis) trace engine) :
    (answered engine.responses ++ engine.waiting).Perm (requests trace) := by
  induction run with
  | start => exact .refl _
  | polled _ _ ih => exact ih
  | step _ _ step ih =>
      have hserves := (step.serves hhashes).accounted
      rw [requests, List.filterMap_append]
      exact hserves.trans (ih.append_right _)

private theorem Run.own (hhashes : X.PayloadHashes) {provider : ChainState X.Proof}
    {genesis : BlockNumHash} {trace : List (Processed X.Proof)} {engine : ConsensusEngine X}
    (run : Run Any (.new provider genesis) trace engine) {parked : ParkedPayload}
    (hparked : engine.parkedPayload = some parked) : ∃ payload,
      .message (.newPayload payload parked.tx) ∈ trace ∧ payload.blockHash = parked.blockHash := by
  induction run with
  | start => cases hparked
  | polled _ _ ih => exact ih hparked
  | step _ _ step ih =>
      rcases (step.serves hhashes).parked hparked with hold | ⟨payload, rfl, hhash⟩
      · obtain ⟨payload, hmem, hhash⟩ := ih hold
        exact ⟨payload, List.mem_append_left _ hmem, hhash⟩
      · exact ⟨payload, List.mem_append_right _ List.mem_cons_self, hhash⟩

/-- **Every new payload is answered once, for its own block.**  Whatever is polled
in whatever order, as long as no download outcome stops the engine. -/
theorem payloadProtocol_of_polls (hhashes : X.PayloadHashes) {provider : ChainState X.Proof}
    {genesis : BlockNumHash} {trace : List (Processed X.Proof)} {engine : ConsensusEngine X}
    (polls : Polls (.new provider genesis) trace engine) :
    PayloadProtocol (.new provider genesis) trace engine := by
  have run := Run.of_poll polls
  have haccounted := run.accounted hhashes
  have hnodup : (requests trace).Nodup → (answered engine.responses ++ engine.waiting).Nodup :=
    haccounted.nodup_iff.mpr
  have hwaiting : ∀ tx, tx ∈ engine.waiting ↔
      ∃ parked, engine.parkedPayload = some parked ∧ parked.tx = tx := by
    intro tx
    rw [waiting, Option.mem_toList, Option.map_eq_some_iff]
  refine ⟨haccounted, fun h => (hnodup h).of_append_left, fun h tx => ?_,
    fun parked => run.own hhashes, fun before event after heq => ?_⟩
  · rw [← haccounted.mem_iff, ← hwaiting, List.mem_append]
    constructor
    · rintro ⟨hmem, hnot⟩
      exact hmem.resolve_left hnot
    · exact fun hmem =>
        ⟨.inr hmem, fun hans => (List.disjoint_of_nodup_append (hnodup h)) hans hmem⟩
  · obtain ⟨engine₁, engine₂, hbefore, hstep, hafter⟩ := run.split before event after heq
    exact ⟨engine₁, engine₂, hbefore, hstep.serves hhashes, hafter⟩

end ConsensusEngine

namespace SmallWorld

open ConsensusEngine

theorem payloadHashes : externals.PayloadHashes := by
  intro payload block hformed
  cases hformed
  rfl

/-- A round that is offered nothing but a message. -/
def offer (message : BeaconEngineMessage) : PollInput externals :=
  ⟨⟨fun _ => none, fun _ => none, fun _ => none⟩, false, some message, ascending⟩

/-- Block 1 is announced, and parked until its proof is there. -/
theorem payloadProtocol_of_parked :
    ∃ engine : ConsensusEngine externals, engine.parkedPayload = some ⟨2, 7⟩ ∧
      PayloadProtocol (launch externals (straightBlock 0))
        [.message (.newPayload (payload (straightBlock 1)) 7)] engine := by
  refine ⟨(poll (offer (.newPayload (payload (straightBlock 1)) 7))
    (launch externals (straightBlock 0))).2.2, by decide +kernel, ?_⟩
  exact payloadProtocol_of_polls payloadHashes
    (.round .start (offer (.newPayload (payload (straightBlock 1)) 7)) nofun)

end SmallWorld

end ZkRess
