import ZkRess.Properties.PayloadResponses

/-!
# Answers in the order of the messages

The engine takes no message while a payload is parked, so its answers, of both kinds
together, come in the order in which the messages were taken: the n-th response answers the
n-th message, and at most the last message has none yet.  A fork-choice update never waits;
its answer is the result of handling it in the state it was taken in.
-/

namespace ZkRess

open Foundation

variable {X : Externals}

namespace ConsensusEngine

/-- What is answered on a reply channel. -/
inductive Request
  | newPayload (tx : ℕ)
  | forkchoiceUpdated (tx : ℕ)
  deriving DecidableEq, Repr

/-- The request of a message. -/
def Request.ofMessage : BeaconEngineMessage → Request
  | .newPayload _ tx => .newPayload tx
  | .forkchoiceUpdated _ _ tx _ => .forkchoiceUpdated tx

/-- The request a response is for. -/
def Request.ofResponse : Response → Request
  | .payload tx _ => .newPayload tx
  | .forkchoice tx _ => .forkchoiceUpdated tx

/-- The requests of both kinds in a trace. -/
def asked (trace : List (Processed X.Proof)) : List Request :=
  trace.filterMap fun
    | .message message => some (.ofMessage message)
    | _ => none

/-- The request of the parked payload. -/
def unanswered (engine : ConsensusEngine X) : List Request := engine.waiting.map .newPayload

/-- Nothing waits when no payload is parked. -/
theorem unanswered_of_unparked {engine : ConsensusEngine X} (h : engine.parkedPayload = none) :
    engine.unanswered = [] := by
  unfold unanswered waiting
  rw [h]
  rfl

/-- **One event** puts its request at the end. -/
theorem Serves.inOrder {engine engine' : ConsensusEngine X} {event : Processed X.Proof}
    (h : Serves engine event engine') :
    engine'.responses.map .ofResponse ++ engine'.unanswered
      = engine.responses.map .ofResponse ++ engine.unanswered ++ asked [event] := by
  cases h with
  | parks unparked parks responses =>
      simp [unanswered, waiting, asked, Request.ofMessage, unparked, parks, responses]
  | answers unparked stillUnparked σ responses =>
      simp [unanswered, waiting, asked, Request.ofMessage, Request.ofResponse, unparked,
        stillUnparked, responses]
  | updates unparked stillUnparked responses =>
      simp [unanswered, waiting, asked, Request.ofMessage, Request.ofResponse, unparked,
        stillUnparked, responses]
  | unlocks isParked unparks _ _ _ _ _ responses =>
      simp [unanswered, waiting, asked, Request.ofResponse, isParked, unparks, responses]
  | delivers parkedPayload responses =>
      simp [unanswered, waiting, asked, parkedPayload, responses]
  | timesOut isParked unparks responses =>
      simp [unanswered, waiting, asked, Request.ofResponse, isParked, unparks, responses]

/-- Responses are only ever added. -/
theorem Step.responses_prefix {engine engine' : ConsensusEngine X} {event : Processed X.Proof}
    (hhashes : X.PayloadHashes) (step : Step engine event engine') :
    engine.responses <+: engine'.responses := by
  cases step.serves hhashes with
  | parks _ _ responses => exact responses ▸ List.prefix_refl _
  | answers _ _ _ responses => exact responses ▸ List.prefix_append _ _
  | updates _ _ responses => exact responses ▸ List.prefix_append _ _
  | unlocks _ _ _ _ _ _ _ responses => exact responses ▸ List.prefix_append _ _
  | delivers _ responses => exact responses ▸ List.prefix_refl _
  | timesOut _ _ responses => exact responses ▸ List.prefix_append _ _

theorem Run.responses_prefix (hhashes : X.PayloadHashes) {start engine : ConsensusEngine X}
    {trace : List (Processed X.Proof)} (run : Run Any start trace engine) :
    start.responses <+: engine.responses := by
  induction run with
  | start => exact List.prefix_refl _
  | polled _ _ ih => exact ih
  | step _ _ step ih => exact ih.trans (step.responses_prefix hhashes)

theorem Run.inOrder (hhashes : X.PayloadHashes) {provider : ChainState X.Proof}
    {genesis : BlockNumHash} {trace : List (Processed X.Proof)} {engine : ConsensusEngine X}
    (run : Run Any (.new provider genesis) trace engine) :
    engine.responses.map .ofResponse ++ engine.unanswered = asked trace := by
  induction run with
  | start => rfl
  | polled _ _ ih => exact ih
  | step _ _ step ih =>
      rw [asked, List.filterMap_append, (step.serves hhashes).inOrder, ih]
      rfl

/-- **Answers in order**, in a state reached with this trace. -/
structure AnswersInOrder (start : ConsensusEngine X) (trace : List (Processed X.Proof))
    (engine : ConsensusEngine X) : Prop where
  /-- The responses, and then the parked payload, are for the messages, in their order. -/
  inOrder : engine.responses.map .ofResponse ++ engine.unanswered = asked trace
  /-- A parked payload is the last message. -/
  parked : ∀ parked, engine.parkedPayload = some parked →
    (asked trace).getLast? = some (.newPayload parked.tx)
  /-- The answer of a fork-choice update stands at its place among the messages, and is the
  result of the update on the tree that the messages and outcomes before it have led to. -/
  chosen : ∀ before after state payloadAttrs tx version,
    trace = before ++ .message (.forkchoiceUpdated state payloadAttrs tx version) :: after →
      ∃ engine₁ σ, Run Any start before engine₁ ∧
        engine.responses[(asked before).length]? = some (.forkchoice tx
          ((EngineTree.onForkchoiceUpdated σ engine₁.tree state payloadAttrs version).1.map
            TreeOutcome.outcome))

/-- **The n-th response answers the n-th message**, whatever is polled in whatever order, as
long as no download outcome stops the engine. -/
theorem answersInOrder_of_polls (hhashes : X.PayloadHashes) {provider : ChainState X.Proof}
    {genesis : BlockNumHash} {trace : List (Processed X.Proof)} {engine : ConsensusEngine X}
    (polls : Polls (.new provider genesis) trace engine) :
    AnswersInOrder (.new provider genesis) trace engine := by
  have run := Run.of_poll polls
  refine ⟨run.inOrder hhashes, fun parked hparked => ?_, ?_⟩
  · have hunanswered : engine.unanswered = [.newPayload parked.tx] := by
      unfold unanswered waiting
      rw [hparked]
      rfl
    rw [← run.inOrder hhashes, hunanswered, List.getLast?_concat]
  · intro before after state payloadAttrs tx version heq
    obtain ⟨engine₁, engine₂, hbefore, hstep, hafter⟩ := run.split before _ after heq
    cases hstep with
    | message σ _ unparked =>
        refine ⟨engine₁, σ, hbefore, ?_⟩
        -- before the update everything is answered, so its answer has the next place
        have hplace := hbefore.inOrder hhashes
        rw [unanswered_of_unparked unparked, List.append_nil] at hplace
        have hlength : (asked before).length = engine₁.responses.length := by
          rw [← hplace, List.length_map]
        obtain ⟨later, hlater⟩ := hafter.responses_prefix hhashes
        rw [hlength, ← hlater]
        cases onEngineMessage_forkchoiceUpdated σ engine₁ state payloadAttrs tx version with
        | answered handled _ _ responses =>
            rw [responses, handled, List.append_assoc, List.getElem?_append_right (Nat.le_refl _),
              Nat.sub_self]
            rfl

end ConsensusEngine

namespace SmallWorld

open ConsensusEngine

/-- A fork-choice update to the genesis block, and then a payload that is parked. -/
theorem answersInOrder_of_parked :
    ∃ engine : ConsensusEngine externals, engine.parkedPayload = some ⟨2, 7⟩ ∧
      AnswersInOrder (launch externals (straightBlock 0))
        ([.message (.forkchoiceUpdated ⟨1, 0, 0⟩ none 6 0)] ++
          [.message (.newPayload (payload (straightBlock 1)) 7)]) engine := by
  have hround : Polls (launch externals (straightBlock 0)) _ _ :=
    .round .start (offer (.forkchoiceUpdated ⟨1, 0, 0⟩ none 6 0)) nofun
  exact ⟨_, by decide +kernel, answersInOrder_of_polls payloadHashes
    (hround.round (offer (.newPayload (payload (straightBlock 1)) 7)) nofun)⟩

end SmallWorld

end ZkRess
