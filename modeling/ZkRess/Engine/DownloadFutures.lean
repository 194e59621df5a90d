import ZkRess.Engine.BlockRange

/-!
# The download futures

The futures of `download/futs.rs` that end in a block or in headers:
`FetchFullBlockFuture`, `FetchHeadersRangeFuture`, and the two chained to
`FetchFullBlockWithAncestorsFuture`.

A peer is not trusted, and neither is the order in which it answers.  Whether a
request is answered when it is polled, and with what, is the input of the model:
for the full block one pair of answers a round of the loop in `poll`, for a range
the responses that are ready before the first one that is not.  A request in
flight is known by what it asks for and by its delay, and the requests sent are
kept as a log.

The headers a peer sends have more fields than the client reads; their type, their
hash and the consensus checks are collected in `DownloadExternals`.  What the code
relies on about the checks is stated as separate properties: a range is checked header by
header and pair by pair (`ChecksRange`), and a header that passes against a parent is
linked to it (`ChecksParent`).
-/

namespace ZkRess

/-! ## What the futures call and do not define -/

/-- The headers on the wire, and the checks of `EthBeaconConsensus`. -/
structure DownloadExternals where
  /-- `Header` with all its fields. -/
  WireHeader : Type
  /-- The fields the client reads. -/
  fields : WireHeader → Header
  /-- `Header::hash_slow`. -/
  hashSlow : WireHeader → B256
  validateHeader : SealedHeader → Except ConsensusError Unit
  /-- The header first, its parent second. -/
  validateHeaderAgainstParent : SealedHeader → SealedHeader → Except ConsensusError Unit
  validateHeaderRange : List SealedHeader → Except ConsensusError Unit
  validateBodyAgainstHeader : BlockBody → SealedHeader → Except ConsensusError Unit

namespace DownloadExternals

variable (D : DownloadExternals)

/-- `SealedHeader::seal_slow`. -/
def sealSlow (header : D.WireHeader) : SealedHeader := ⟨D.fields header, D.hashSlow header⟩

/-- Each header passes on its own, and against the one before it. -/
structure PassesChecks (headers : List SealedHeader) : Prop where
  each : ∀ header ∈ headers, D.validateHeader header = .ok ()
  pairs : headers.IsChain fun parent child => D.validateHeaderAgainstParent child parent = .ok ()

/-- **Ranges**: exactly the ranges whose headers pass are accepted. -/
def ChecksRange : Prop :=
  ∀ headers, D.validateHeaderRange headers = .ok () ↔ D.PassesChecks headers

/-- **Parents**: a header that passes against its parent names it, and is numbered
one above it. -/
def ChecksParent : Prop :=
  ∀ child parent, D.validateHeaderAgainstParent child parent = .ok () →
    child.parentHash = parent.hash ∧ child.number = parent.number + 1

variable {D}

/-- A part of a range passes if the range does. -/
theorem PassesChecks.part {headers part : List SealedHeader} (h : D.PassesChecks headers)
    (hpart : part <:+: headers) : D.PassesChecks part :=
  by
  obtain ⟨before, after, rfl⟩ := hpart
  exact ⟨fun header hmem => h.each header (by simp [hmem]),
    h.pairs.left_of_append.right_of_append⟩

end DownloadExternals

/-! ## A range of headers -/

/-- `GetHeaders`: a number of headers, falling from a hash. -/
structure GetHeaders where
  startHash : B256
  limit : ℕ
  deriving DecidableEq, Repr

/-- A response to a request for headers. -/
abbrev DownloadExternals.HeadersResponse (D : DownloadExternals) :=
  Except PeerRequestError (List D.WireHeader)

/-- A future that downloads headers range. -/
structure FetchHeadersRangeFuture where
  retryDelay : ℕ
  request : GetHeaders
  /-- The delay of the request in flight. -/
  pending : ℕ
  deriving DecidableEq, Repr

/-- What a poll of the range ends with. -/
inductive HeadersPoll
  | pending (future : FetchHeadersRangeFuture)
  | ready (headers : List SealedHeader)
  deriving DecidableEq, Repr

namespace FetchHeadersRangeFuture

/-- Create new fetch headers range future. -/
def new (retryDelay : ℕ) (request : GetHeaders) : FetchHeadersRangeFuture :=
  ⟨retryDelay, request, 0⟩

/-- Ask again, after the delay. -/
def requestHeaders (future : FetchHeadersRangeFuture) : FetchHeadersRangeFuture :=
  { future with pending := future.retryDelay }

/-- The headers of a response that is accepted. -/
def onResponse (D : DownloadExternals) (future : FetchHeadersRangeFuture) :
    D.HeadersResponse → Option (List SealedHeader)
  | .error _ => none
  | .ok headers =>
      if headers.length < future.request.limit then none
      else
        let headersFalling := headers.map D.sealSlow
        match headersFalling with
        -- the code reads the first header; there is one unless the limit is zero
        | [] => none
        | first :: _ =>
            if first.hash ≠ future.request.startHash then none
            else
              match D.validateHeaderRange headersFalling.reverse with
              | .ok () => some headersFalling
              | .error _ => none

/-- Poll through the responses that are ready; after the last, the request in
flight is pending. -/
def poll (D : DownloadExternals) (future : FetchHeadersRangeFuture) :
    List D.HeadersResponse → HeadersPoll
  | [] => .pending future
  | response :: responses =>
      match future.onResponse D response with
      | some headers => .ready headers
      | none => poll D future.requestHeaders responses

/-- What an accepted response is like. -/
theorem onResponse_eq_some {D : DownloadExternals} {future : FetchHeadersRangeFuture}
    {response : D.HeadersResponse} {accepted : List SealedHeader} :
    future.onResponse D response = some accepted ↔
      ∃ headers, response = .ok headers ∧ accepted = headers.map D.sealSlow ∧
        future.request.limit ≤ headers.length ∧
        accepted.head?.map (fun header => header.hash) = some future.request.startHash ∧
        D.validateHeaderRange accepted.reverse = .ok () := by
  constructor
  · intro h
    match response with
    | .error _ => cases h
    | .ok headers =>
        refine ⟨headers, rfl, ?_⟩
        simp only [onResponse] at h
        split at h
        · cases h
        · next hlength =>
            split at h
            · cases h
            · next first rest hheaders =>
                split at h
                · cases h
                · next hstart =>
                    split at h
                    · next hvalid =>
                        obtain rfl := Option.some.inj h
                        refine ⟨rfl, Nat.le_of_not_lt hlength, ?_, hvalid⟩
                        rw [hheaders]
                        exact congrArg some (not_not.mp hstart)
                    · cases h
  · rintro ⟨headers, rfl, rfl, hlength, hstart, hvalid⟩
    unfold onResponse
    simp only [if_neg (Nat.not_lt_of_le hlength)]
    cases hheaders : headers.map D.sealSlow with
    | nil =>
        rw [hheaders] at hstart
        cases hstart
    | cons first rest =>
        rw [hheaders] at hstart hvalid
        have hfirst : first.hash = future.request.startHash := Option.some.inj hstart
        simp only [if_neg (not_not.mpr hfirst), hvalid]

/-- Asking again changes the delay only. -/
@[simp] theorem requestHeaders_request (future : FetchHeadersRangeFuture) :
    future.requestHeaders.request = future.request := rfl

/-- **A resolved range**: one of the responses was accepted. -/
theorem poll_ready {D : DownloadExternals} {future : FetchHeadersRangeFuture}
    {responses : List D.HeadersResponse} {headers : List SealedHeader}
    (h : future.poll D responses = .ready headers) :
    ∃ response ∈ responses, ∃ asked : FetchHeadersRangeFuture, asked.request = future.request ∧
      asked.onResponse D response = some headers := by
  induction responses generalizing future with
  | nil => cases h
  | cons response responses ih =>
      unfold poll at h
      split at h
      · next heq =>
          obtain rfl := HeadersPoll.ready.inj h
          exact ⟨response, List.mem_cons_self, future, rfl, heq⟩
      · obtain ⟨response', hmem, asked, hrequest, haccepted⟩ := ih h
        exact ⟨response', List.mem_cons_of_mem _ hmem, asked, hrequest, haccepted⟩

/-- A range that is pending asks for the same. -/
theorem poll_pending {D : DownloadExternals} {future future' : FetchHeadersRangeFuture}
    {responses : List D.HeadersResponse} (h : future.poll D responses = .pending future') :
    future'.request = future.request := by
  induction responses generalizing future with
  | nil =>
      obtain rfl := HeadersPoll.pending.inj h
      rfl
  | cons response responses ih =>
      unfold poll at h
      split at h
      · cases h
      · rw [← requestHeaders_request future]
        exact ih h

end FetchHeadersRangeFuture

/-! ## A full block -/

/-- A request for the header or the body of a block, sent after a delay. -/
structure PartRequest where
  blockHash : B256
  delay : ℕ
  deriving DecidableEq, Repr

/-- A future that downloads a full block from the network. -/
structure FetchFullBlockFuture where
  retryDelay : ℕ
  blockHash : B256
  pendingHeaderRequest : Option PartRequest
  pendingBodyRequest : Option PartRequest
  header : Option SealedHeader
  body : Option BlockBody
  /-- The requests for the header sent so far. -/
  headerRequests : List PartRequest
  /-- The requests for the body sent so far. -/
  bodyRequests : List PartRequest
  deriving DecidableEq, Repr

/-- What the two requests in flight answer when they are polled in a round of the
loop; `none` for one that is pending. -/
structure PartAnswers (D : DownloadExternals) where
  header : Option (Except PeerRequestError (Option D.WireHeader))
  body : Option (Except PeerRequestError (Option BlockBody))

/-- How a round ends. -/
inductive FullBlockRound
  /-- Go on with the next round. -/
  | again (future : FetchFullBlockFuture)
  /-- `Poll::Pending`. -/
  | pending (future : FetchFullBlockFuture)
  /-- `Poll::Ready`. -/
  | ready (block : Block)
  deriving DecidableEq, Repr

namespace FetchFullBlockFuture

variable (D : DownloadExternals)

/-- Send a request for the header. -/
def requestHeader (future : FetchFullBlockFuture) (delay : ℕ) : FetchFullBlockFuture :=
  { future with
    pendingHeaderRequest := some ⟨future.blockHash, delay⟩
    headerRequests := future.headerRequests ++ [⟨future.blockHash, delay⟩] }

/-- Send a request for the body. -/
def requestBody (future : FetchFullBlockFuture) (delay : ℕ) : FetchFullBlockFuture :=
  { future with
    pendingBodyRequest := some ⟨future.blockHash, delay⟩
    bodyRequests := future.bodyRequests ++ [⟨future.blockHash, delay⟩] }

/-- Create new fetch full block future. -/
def new (retryDelay : ℕ) (blockHash : B256) : FetchFullBlockFuture :=
  (requestHeader ⟨retryDelay, blockHash, none, none, none, none, [], []⟩ 0).requestBody 0

def onHeaderResponse (future : FetchFullBlockFuture) :
    Except PeerRequestError (Option D.WireHeader) → FetchFullBlockFuture
  | .ok (some header) =>
      let header := D.sealSlow header
      if header.hash = future.blockHash then { future with header := some header } else future
  | .ok none => future
  | .error _ => future

def onBodyResponse (future : FetchFullBlockFuture) :
    Except PeerRequestError (Option BlockBody) → FetchFullBlockFuture
  | .ok (some body) => { future with body := some body }
  | .ok none => future
  | .error _ => future

/-- The first part of a round: poll the request for the header.  Without a header it
is sent again, and the next round begins. -/
def pollHeader (future : FetchFullBlockFuture)
    (answer : Option (Except PeerRequestError (Option D.WireHeader))) :
      Bool × FetchFullBlockFuture :=
  match future.pendingHeaderRequest, answer with
  | some _, some response =>
      let future := { future with pendingHeaderRequest := none }.onHeaderResponse D response
      if future.header = none then (true, future.requestHeader future.retryDelay)
      else (false, future)
  | _, _ => (false, future)

/-- The second part: poll the request for the body. -/
def pollBody (future : FetchFullBlockFuture)
    (answer : Option (Except PeerRequestError (Option BlockBody))) : Bool × FetchFullBlockFuture :=
  match future.pendingBodyRequest, answer with
  | some _, some response =>
      let future := { future with pendingBodyRequest := none }.onBodyResponse response
      if future.body = none then (true, future.requestBody future.retryDelay)
      else (false, future)
  | _, _ => (false, future)

/-- The last part: a header and a body that fit are the block; a body that does not
fit is requested again. -/
def finish (future : FetchFullBlockFuture) : FullBlockRound :=
  match future.header, future.body with
  | some header, some body =>
      let future := { future with header := none, body := none }
      match D.validateBodyAgainstHeader body header with
      | .error _ => .again ({ future with header := some header }.requestBody future.retryDelay)
      | .ok () => .ready (Block.fromSealedParts header body)
  | _, _ => .pending future

/-- One round of the loop. -/
def round (future : FetchFullBlockFuture) (answers : PartAnswers D) : FullBlockRound :=
  match future.pollHeader D answers.header with
  | (true, future) => .again future
  | (false, future) =>
      match future.pollBody answers.body with
      | (true, future) => .again future
      | (false, future) => future.finish D

/-- A poll: rounds until one ends it.  When the answers run out before, the loop is
still going (`again`). -/
def poll (future : FetchFullBlockFuture) : List (PartAnswers D) → FullBlockRound
  | [] => .again future
  | answers :: rest =>
      match future.round D answers with
      | .again future => poll future rest
      | .pending future => .pending future
      | .ready block => .ready block

/-! ### What the parts of a round do -/

variable {D}

/-- The header is held, and it is the requested one, or its request is in flight. -/
def HeaderPart (D : DownloadExternals) (future : FetchFullBlockFuture) : Prop :=
  (∃ header, future.header = some (D.sealSlow header) ∧ D.hashSlow header = future.blockHash ∧
      future.pendingHeaderRequest = none) ∨
    (future.header = none ∧ ∃ delay, future.pendingHeaderRequest = some ⟨future.blockHash, delay⟩)

/-- The body is held, or its request is in flight. -/
def BodyPart (future : FetchFullBlockFuture) : Prop :=
  (∃ body, future.body = some body ∧ future.pendingBodyRequest = none) ∨
    (future.body = none ∧ ∃ delay, future.pendingBodyRequest = some ⟨future.blockHash, delay⟩)

/-- The ways out of polling the header. -/
inductive PollsHeader (D : DownloadExternals) (future : FetchFullBlockFuture)
    (answer : Option (Except PeerRequestError (Option D.WireHeader))) :
    Bool × FetchFullBlockFuture → Prop
  /-- The header is held, or its request is pending. -/
  | unchanged (silent : future.pendingHeaderRequest = none ∨ answer = none) :
      PollsHeader D future answer (false, future)
  /-- The requested header has come. -/
  | received {header} (asked : future.pendingHeaderRequest ≠ none)
      (answered : answer = some (.ok (some header)))
      (own : D.hashSlow header = future.blockHash) :
      PollsHeader D future answer
        (false, { future with pendingHeaderRequest := none, header := some (D.sealSlow header) })
  /-- Something else has come. -/
  | missed {response} (asked : future.pendingHeaderRequest ≠ none)
      (answered : answer = some response)
      (other : ∀ header, response = .ok (some header) → D.hashSlow header ≠ future.blockHash)
      (missing : future.header = none) :
      PollsHeader D future answer (true, future.requestHeader future.retryDelay)

/-- The requested header is held from then on. -/
theorem onHeaderResponse_own (future : FetchFullBlockFuture) {header : D.WireHeader}
    (hown : D.hashSlow header = future.blockHash) :
    future.onHeaderResponse D (.ok (some header))
      = { future with header := some (D.sealSlow header) } :=
  if_pos hown

/-- Any other response changes nothing. -/
theorem onHeaderResponse_other (future : FetchFullBlockFuture)
    {response : Except PeerRequestError (Option D.WireHeader)}
    (hother : ∀ header, response = .ok (some header) → D.hashSlow header ≠ future.blockHash) :
    future.onHeaderResponse D response = future := by
  match response with
  | .error _ => rfl
  | .ok none => rfl
  | .ok (some header) => exact if_neg (hother header rfl)

theorem pollHeader_cases {future : FetchFullBlockFuture} (hpart : future.HeaderPart D)
    (answer : Option (Except PeerRequestError (Option D.WireHeader))) :
    PollsHeader D future answer (future.pollHeader D answer) := by
  unfold pollHeader
  rcases hpart with ⟨header, hheld, hown, hnone⟩ | ⟨hmissing, delay, hrequest⟩
  · rw [hnone]
    exact .unchanged (.inl hnone)
  · rw [hrequest]
    have hasked : future.pendingHeaderRequest ≠ none := by
      rw [hrequest]
      exact Option.some_ne_none _
    match answer with
    | none => exact .unchanged (.inr rfl)
    | some response =>
        by_cases hown :
          ∃ header, response = .ok (some header) ∧ D.hashSlow header = future.blockHash
        · obtain ⟨header, rfl, hown⟩ := hown
          simp only [onHeaderResponse_own { future with pendingHeaderRequest := none } hown]
          exact .received hasked rfl hown
        · have hother : ∀ header, response = .ok (some header) →
              D.hashSlow header ≠ future.blockHash :=
            fun header heq hhash => hown ⟨header, heq, hhash⟩
          simp only [onHeaderResponse_other { future with pendingHeaderRequest := none } hother,
            if_pos hmissing]
          exact .missed hasked rfl hother hmissing

/-- The ways out of polling the body. -/
inductive PollsBody (future : FetchFullBlockFuture)
    (answer : Option (Except PeerRequestError (Option BlockBody))) :
    Bool × FetchFullBlockFuture → Prop
  | unchanged (silent : future.pendingBodyRequest = none ∨ answer = none) :
      PollsBody future answer (false, future)
  | received {body} (asked : future.pendingBodyRequest ≠ none)
      (answered : answer = some (.ok (some body))) :
      PollsBody future answer
        (false, { future with pendingBodyRequest := none, body := some body })
  | missed {response} (asked : future.pendingBodyRequest ≠ none)
      (answered : answer = some response) (other : ∀ body, response ≠ .ok (some body))
      (missing : future.body = none) :
      PollsBody future answer (true, future.requestBody future.retryDelay)

/-- A response without a body changes nothing. -/
theorem onBodyResponse_other (future : FetchFullBlockFuture)
    {response : Except PeerRequestError (Option BlockBody)}
    (hother : ∀ body, response ≠ .ok (some body)) : future.onBodyResponse response = future := by
  match response with
  | .error _ => rfl
  | .ok none => rfl
  | .ok (some body) => exact absurd rfl (hother body)

theorem pollBody_cases {future : FetchFullBlockFuture} (hpart : future.BodyPart)
    (answer : Option (Except PeerRequestError (Option BlockBody))) :
    PollsBody future answer (future.pollBody answer) := by
  unfold pollBody
  rcases hpart with ⟨body, hheld, hnone⟩ | ⟨hmissing, delay, hrequest⟩
  · rw [hnone]
    exact .unchanged (.inl hnone)
  · rw [hrequest]
    have hasked : future.pendingBodyRequest ≠ none := by
      rw [hrequest]
      exact Option.some_ne_none _
    match answer with
    | none => exact .unchanged (.inr rfl)
    | some response =>
        by_cases hbody : ∃ body, response = .ok (some body)
        · obtain ⟨body, rfl⟩ := hbody
          exact .received hasked rfl
        · have hother : ∀ body, response ≠ .ok (some body) := fun body heq => hbody ⟨body, heq⟩
          simp only [onBodyResponse_other { future with pendingBodyRequest := none } hother,
            if_pos hmissing]
          exact .missed hasked rfl hother hmissing

/-- Held with its header, nothing of the header's side is touched by the body's. -/
structure SameHeader (future future' : FetchFullBlockFuture) : Prop where
  retryDelay : future'.retryDelay = future.retryDelay
  blockHash : future'.blockHash = future.blockHash
  pendingHeaderRequest : future'.pendingHeaderRequest = future.pendingHeaderRequest
  header : future'.header = future.header
  headerRequests : future'.headerRequests = future.headerRequests

/-- And the other way round. -/
structure SameBody (future future' : FetchFullBlockFuture) : Prop where
  retryDelay : future'.retryDelay = future.retryDelay
  blockHash : future'.blockHash = future.blockHash
  pendingBodyRequest : future'.pendingBodyRequest = future.pendingBodyRequest
  body : future'.body = future.body
  bodyRequests : future'.bodyRequests = future.bodyRequests

theorem HeaderPart.of_same {future future' : FetchFullBlockFuture} (h : future.HeaderPart D)
    (same : SameHeader future future') : future'.HeaderPart D := by
  unfold HeaderPart
  rw [same.header, same.blockHash, same.pendingHeaderRequest]
  exact h

theorem BodyPart.of_same {future future' : FetchFullBlockFuture} (h : future.BodyPart)
    (same : SameBody future future') : future'.BodyPart := by
  unfold BodyPart
  rw [same.body, same.blockHash, same.pendingBodyRequest]
  exact h

theorem PollsHeader.sameBody {future future' : FetchFullBlockFuture} {again : Bool}
    {answer : Option (Except PeerRequestError (Option D.WireHeader))}
    (h : PollsHeader D future answer (again, future')) : SameBody future future' := by
  cases h <;> exact ⟨rfl, rfl, rfl, rfl, rfl⟩

theorem PollsBody.sameHeader {future future' : FetchFullBlockFuture} {again : Bool}
    {answer : Option (Except PeerRequestError (Option BlockBody))}
    (h : PollsBody future answer (again, future')) : SameHeader future future' := by
  cases h <;> exact ⟨rfl, rfl, rfl, rfl, rfl⟩

/-- Polling the request keeps the header held or requested. -/
theorem PollsHeader.part {future future' : FetchFullBlockFuture} {again : Bool}
    {answer : Option (Except PeerRequestError (Option D.WireHeader))}
    (h : PollsHeader D future answer (again, future')) (hpart : future.HeaderPart D) :
    future'.HeaderPart D := by
  cases h with
  | unchanged => exact hpart
  | received asked answered own => exact .inl ⟨_, rfl, own, rfl⟩
  | missed asked answered other missing => exact .inr ⟨missing, _, rfl⟩

theorem PollsBody.part {future future' : FetchFullBlockFuture} {again : Bool}
    {answer : Option (Except PeerRequestError (Option BlockBody))}
    (h : PollsBody future answer (again, future')) (hpart : future.BodyPart) :
    future'.BodyPart := by
  cases h with
  | unchanged => exact hpart
  | received asked answered => exact .inl ⟨_, rfl, rfl⟩
  | missed asked answered other missing => exact .inr ⟨missing, _, rfl⟩

/-- The ways through a round. -/
inductive Rounds (D : DownloadExternals) (future : FetchFullBlockFuture)
    (answers : PartAnswers D) : FullBlockRound → Prop
  | headerMissed {future'} (header : PollsHeader D future answers.header (true, future')) :
      Rounds D future answers (.again future')
  | bodyMissed {between future'} (header : PollsHeader D future answers.header (false, between))
      (body : PollsBody between answers.body (true, future')) :
      Rounds D future answers (.again future')
  /-- One of the two is still missing. -/
  | waiting {between future'} (header : PollsHeader D future answers.header (false, between))
      (body : PollsBody between answers.body (false, future'))
      (missing : future'.header = none ∨ future'.body = none) :
      Rounds D future answers (.pending future')
  /-- The body does not fit. -/
  | wrongBody {between both heldHeader heldBody}
      (header : PollsHeader D future answers.header (false, between))
      (body : PollsBody between answers.body (false, both))
      (hasHeader : both.header = some heldHeader) (hasBody : both.body = some heldBody)
      (wrong : D.validateBodyAgainstHeader heldBody heldHeader ≠ .ok ()) :
      Rounds D future answers
        (.again ({ both with header := some heldHeader, body := none }.requestBody both.retryDelay))
  /-- The body fits. -/
  | complete {between both heldHeader heldBody}
      (header : PollsHeader D future answers.header (false, between))
      (body : PollsBody between answers.body (false, both))
      (hasHeader : both.header = some heldHeader) (hasBody : both.body = some heldBody)
      (fits : D.validateBodyAgainstHeader heldBody heldHeader = .ok ()) :
      Rounds D future answers (.ready (Block.fromSealedParts heldHeader heldBody))

theorem round_cases {future : FetchFullBlockFuture} (hheader : future.HeaderPart D)
    (hbody : future.BodyPart) (answers : PartAnswers D) :
    Rounds D future answers (future.round D answers) := by
  have hpolled := pollHeader_cases hheader answers.header
  unfold round
  match future.pollHeader D answers.header, hpolled with
  | (true, future'), hpolled => exact .headerMissed hpolled
  | (false, between), hpolled =>
      have hpolled' := pollBody_cases (hbody.of_same hpolled.sameBody) answers.body
      simp only
      match between.pollBody answers.body, hpolled' with
      | (true, future'), hpolled' => exact .bodyMissed hpolled hpolled'
      | (false, both), hpolled' =>
          simp only [finish]
          match hheld : both.header, hheld' : both.body with
          | none, _ => exact .waiting hpolled hpolled' (.inl hheld)
          | some _, none => exact .waiting hpolled hpolled' (.inr hheld')
          | some heldHeader, some heldBody =>
              match hcheck : D.validateBodyAgainstHeader heldBody heldHeader with
              | .ok () =>
                  simp only [hcheck]
                  exact .complete hpolled hpolled' hheld hheld' hcheck
              | .error error =>
                  simp only [hcheck]
                  exact .wrongBody hpolled hpolled' hheld hheld'
                    (by simp [hcheck])

end FetchFullBlockFuture

/-! ## A full block with its ancestors -/

/-- First the block, then the headers before it. -/
inductive FullBlockWithAncestorsDownloadState
  | fullBlock (fut : FetchFullBlockFuture)
  | ancestors (block : Block) (fut : FetchHeadersRangeFuture)
  deriving DecidableEq, Repr

/-- A future that downloads full block and the headers of its ancestors. -/
structure FetchFullBlockWithAncestorsFuture where
  blockHash : B256
  ancestorCount : ℕ
  state : FullBlockWithAncestorsDownloadState
  deriving DecidableEq, Repr

/-- What a poll of the block with its ancestors ends with. -/
inductive WithAncestorsPoll
  | again (future : FetchFullBlockWithAncestorsFuture)
  | pending (future : FetchFullBlockWithAncestorsFuture)
  | ready (block : Block) (ancestors : List SealedHeader)
  deriving DecidableEq, Repr

namespace FetchFullBlockWithAncestorsFuture

variable (D : DownloadExternals)

/-- Create new fetch full block with ancestors future. -/
def new (retryDelay : ℕ) (blockHash : B256) (ancestorCount : ℕ) :
    FetchFullBlockWithAncestorsFuture :=
  ⟨blockHash, ancestorCount, .fullBlock (.new retryDelay blockHash)⟩

/-- The loop once the block is there. -/
def pollAncestors (future : FetchFullBlockWithAncestorsFuture) (block : Block)
    (fut : FetchHeadersRangeFuture) (responses : List D.HeadersResponse) : WithAncestorsPoll :=
  match fut.poll D responses with
  | .pending fut => .pending { future with state := .ancestors block fut }
  | .ready ancestors => .ready block ancestors

/-- A poll: the rounds of the full block, and when it is ready, the responses to the
request for its ancestors. -/
def poll (future : FetchFullBlockWithAncestorsFuture) (answers : List (PartAnswers D))
    (responses : List D.HeadersResponse) : WithAncestorsPoll :=
  match future.state with
  | .fullBlock fut =>
      match fut.poll D answers with
      | .again fut => .again { future with state := .fullBlock fut }
      | .pending fut => .pending { future with state := .fullBlock fut }
      | .ready block =>
          future.pollAncestors D block
            (.new fut.retryDelay ⟨block.parentHash, future.ancestorCount⟩) responses
  | .ancestors block fut => future.pollAncestors D block fut responses

end FetchFullBlockWithAncestorsFuture

end ZkRess
