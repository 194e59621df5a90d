import ZkRess.Engine.DownloadFutures

/-!
# Full block downloads

A full block is downloaded in two parts, each with its own retries, in one loop.
`Fetching` is what holds between two rounds of that loop: each part is held or
requested, and one of them is missing.  Every round keeps it (`Fetching.round`), and
what a round does to the header and to the requests is said by `Progress`.

From the two: the block a download resolves to is the requested one, with a body that
fits; a pending download waits for exactly the parts it does not hold; and a header
that was received is there until the end (`downloadsFullBlock`).
-/

namespace ZkRess

namespace FetchFullBlockFuture

variable {D : DownloadExternals} {blockHash : B256}

/-! ## Rounds -/

/-- A round that does not end the download. -/
def Moves (D : DownloadExternals) (future future' : FetchFullBlockFuture) : Prop :=
  ∃ answers, future.round D answers = .again future' ∨ future.round D answers = .pending future'

/-- Any number of rounds, in one poll or in several. -/
abbrev Later (D : DownloadExternals) : FetchFullBlockFuture → FetchFullBlockFuture → Prop :=
  Relation.ReflTransGen (Moves D)

/-- A poll that does not resolve leaves a later state. -/
theorem later_of_poll {future future' : FetchFullBlockFuture} {answers : List (PartAnswers D)}
    (h : future.poll D answers = .again future' ∨ future.poll D answers = .pending future') :
    Later D future future' := by
  induction answers generalizing future with
  | nil =>
      rcases h with h | h
      · obtain rfl := FullBlockRound.again.inj h
        exact .refl
      · cases h
  | cons first rest ih =>
      unfold poll at h
      match hround : future.round D first, h with
      | .again between, h => exact .head ⟨first, .inl hround⟩ (ih h)
      | .pending between, h =>
          rcases h with h | h
          · cases h
          · obtain rfl := FullBlockRound.pending.inj h
            exact .single ⟨first, .inr hround⟩
      | .ready block, h => exact absurd h (by simp)

/-- A poll that resolves does so in the round of a later state. -/
theorem round_of_poll_ready {future : FetchFullBlockFuture} {answers : List (PartAnswers D)}
    {block : Block} (h : future.poll D answers = .ready block) :
    ∃ last, Later D future last ∧ ∃ answer ∈ answers, last.round D answer = .ready block := by
  induction answers generalizing future with
  | nil => cases h
  | cons first rest ih =>
      unfold poll at h
      match hround : future.round D first, h with
      | .again between, h =>
          obtain ⟨last, hlater, answer, hmem, hready⟩ := ih h
          exact ⟨last, .head ⟨first, .inl hround⟩ hlater, answer, List.mem_cons_of_mem _ hmem,
            hready⟩
      | .ready block', h =>
          obtain rfl := FullBlockRound.ready.inj h
          exact ⟨future, .refl, first, List.mem_cons_self, hround⟩

/-! ## What holds between two rounds -/

/-- Each part is held or requested, and one of them is missing. -/
structure Fetching (D : DownloadExternals) (blockHash : B256) (future : FetchFullBlockFuture) :
    Prop where
  requested : future.blockHash = blockHash
  header : future.HeaderPart D
  body : future.BodyPart
  missing : future.header = none ∨ future.body = none

theorem fetching_new (D : DownloadExternals) (retryDelay : ℕ) (blockHash : B256) :
    Fetching D blockHash (new retryDelay blockHash) where
  requested := rfl
  header := .inr ⟨rfl, 0, rfl⟩
  body := .inr ⟨rfl, 0, rfl⟩
  missing := .inl rfl

/-- What was requested has come: its header, and a body that fits. -/
def Resolved (D : DownloadExternals) (blockHash : B256) (block : Block) : Prop :=
  ∃ header body, block = Block.fromSealedParts (D.sealSlow header) body ∧
    D.hashSlow header = blockHash ∧ D.validateBodyAgainstHeader body (D.sealSlow header) = .ok ()

/-- Requests are only sent when the one before has been answered. -/
def Sends (requests requests' : List PartRequest) (idle : Prop) : Prop :=
  requests' = requests ∨ (idle ∧ ∃ request, requests' = requests ++ [request])

/-- What a round does to the header and to the requests for it. -/
structure HeaderProgress (D : DownloadExternals) (future : FetchFullBlockFuture)
    (answer : Option (Except PeerRequestError (Option D.WireHeader)))
    (future' : FetchFullBlockFuture) : Prop where
  kept : ∀ header, future.header = some header →
    future'.header = some header ∧ future'.headerRequests = future.headerRequests
  received : ∀ header, future.pendingHeaderRequest ≠ none → answer = some (.ok (some header)) →
    D.hashSlow header = future.blockHash → future'.header = some (D.sealSlow header)
  sends : Sends future.headerRequests future'.headerRequests
    (future.pendingHeaderRequest ≠ none ∧ answer ≠ none)

theorem HeaderProgress.of_same {future between future' : FetchFullBlockFuture}
    {answer : Option (Except PeerRequestError (Option D.WireHeader))}
    (h : HeaderProgress D future answer between) (same : SameHeader between future') :
    HeaderProgress D future answer future' where
  kept := by
    rw [same.header, same.headerRequests]
    exact h.kept
  received := by
    rw [same.header]
    exact h.received
  sends := by
    rw [same.headerRequests]
    exact h.sends

theorem PollsHeader.progress {future future' : FetchFullBlockFuture} {again : Bool}
    {answer : Option (Except PeerRequestError (Option D.WireHeader))}
    (h : PollsHeader D future answer (again, future')) (hpart : future.HeaderPart D) :
    HeaderProgress D future answer future' := by
  -- a header that is held is not requested
  have hidle : ∀ {header}, future.header = some header → future.pendingHeaderRequest = none := by
    rcases hpart with ⟨-, -, -, hnone⟩ | ⟨hmissing, -⟩
    · exact fun _ => hnone
    · intro header hheld
      rw [hmissing] at hheld
      cases hheld
  cases h with
  | unchanged silent =>
      refine ⟨fun header hheld => ⟨hheld, rfl⟩, fun header hasked hanswer _ => ?_, .inl rfl⟩
      rcases silent with hnone | hnone
      · exact absurd hnone hasked
      · rw [hnone] at hanswer
        cases hanswer
  | received asked answered own =>
      refine ⟨fun header hheld => absurd (hidle hheld) asked, fun header _ hanswer _ => ?_,
        .inl rfl⟩
      rw [answered] at hanswer
      cases hanswer
      rfl
  | missed asked answered other missing =>
      refine ⟨fun header hheld => absurd (hidle hheld) asked, fun header _ hanswer hown => ?_,
        .inr ⟨⟨asked, ?_⟩, _, rfl⟩⟩
      · rw [answered] at hanswer
        exact absurd hown (other header (Option.some.inj hanswer))
      · rw [answered]
        exact Option.some_ne_none _

/-- What a round does to the requests for the body. -/
theorem PollsBody.sends {future future' : FetchFullBlockFuture} {again : Bool}
    {answer : Option (Except PeerRequestError (Option BlockBody))}
    (h : PollsBody future answer (again, future')) :
    Sends future.bodyRequests future'.bodyRequests
      (future.pendingBodyRequest = none ∨ answer ≠ none) := by
  cases h with
  | unchanged => exact .inl rfl
  | received => exact .inl rfl
  | missed asked answered other missing =>
      refine .inr ⟨.inr ?_, _, rfl⟩
      rw [answered]
      exact Option.some_ne_none _

/-- A body that is held after polling was held before, and then not requested, or it
was answered. -/
theorem PollsBody.idle {future both : FetchFullBlockFuture} {again : Bool}
    {answer : Option (Except PeerRequestError (Option BlockBody))} {body : BlockBody}
    (h : PollsBody future answer (again, both)) (hpart : future.BodyPart)
    (hheld : both.body = some body) :
    (future.pendingBodyRequest = none ∨ answer ≠ none) ∧
      both.bodyRequests = future.bodyRequests := by
  cases h with
  | unchanged =>
      refine ⟨.inl ?_, rfl⟩
      rcases hpart with ⟨-, -, hnone⟩ | ⟨hmissing, -⟩
      · exact hnone
      · rw [hmissing] at hheld
        cases hheld
  | received asked answered =>
      refine ⟨.inr ?_, rfl⟩
      rw [answered]
      exact Option.some_ne_none _
  | missed asked answered other missing =>
      have hnone : future.body = some body := hheld
      rw [missing] at hnone
      cases hnone

/-- What a round does that does not end the download. -/
structure Progress (D : DownloadExternals) (future : FetchFullBlockFuture)
    (answers : PartAnswers D) (future' : FetchFullBlockFuture) : Prop where
  header : HeaderProgress D future answers.header future'
  bodySends : Sends future.bodyRequests future'.bodyRequests
    (future.pendingBodyRequest = none ∨ answers.body ≠ none)

/-- Both parts after they have been polled, the header first. -/
theorem Fetching.polled {future between both : FetchFullBlockFuture} {answers : PartAnswers D}
    {again again' : Bool} (h : Fetching D blockHash future)
    (header : PollsHeader D future answers.header (again, between))
    (body : PollsBody between answers.body (again', both)) :
    both.blockHash = blockHash ∧ both.HeaderPart D ∧ both.BodyPart ∧
      Progress D future answers both := by
  have hsame := header.sameBody
  have hsame' := body.sameHeader
  refine ⟨hsame'.blockHash.trans (hsame.blockHash.trans h.requested),
    (header.part h.header).of_same hsame', body.part (h.body.of_same hsame),
    (header.progress h.header).of_same hsame', ?_⟩
  rw [← hsame.bodyRequests, ← hsame.pendingBodyRequest]
  exact body.sends

/-- **A round keeps each part held or requested.** -/
theorem Fetching.round {future future' : FetchFullBlockFuture} {answers : PartAnswers D}
    (h : Fetching D blockHash future)
    (hround : future.round D answers = .again future' ∨ future.round D answers = .pending future') :
    Fetching D blockHash future' ∧ Progress D future answers future' := by
  have hcases := round_cases h.header h.body answers
  generalize future.round D answers = result at hcases hround
  cases hcases with
  | headerMissed header =>
      obtain rfl := FullBlockRound.again.inj (hround.resolve_right (fun h => nomatch h))
      have hsame := header.sameBody
      refine ⟨⟨hsame.blockHash.trans h.requested, header.part h.header, h.body.of_same hsame, ?_⟩,
        header.progress h.header, .inl hsame.bodyRequests⟩
      cases header with
      | missed asked answered other missing => exact .inl missing
  | bodyMissed header body =>
      obtain rfl := FullBlockRound.again.inj (hround.resolve_right (fun h => nomatch h))
      obtain ⟨hrequested, hheader, hbody, hprogress⟩ := h.polled header body
      refine ⟨⟨hrequested, hheader, hbody, ?_⟩, hprogress⟩
      cases body with
      | missed asked answered other missing => exact .inr missing
  | waiting header body missing =>
      obtain rfl := FullBlockRound.pending.inj (hround.resolve_left (fun h => nomatch h))
      obtain ⟨hrequested, hheader, hbody, hprogress⟩ := h.polled header body
      exact ⟨⟨hrequested, hheader, hbody, missing⟩, hprogress⟩
  | @wrongBody between both heldHeader heldBody header body hasHeader hasBody wrong =>
      obtain rfl := FullBlockRound.again.inj (hround.resolve_right (fun h => nomatch h))
      obtain ⟨hrequested, hheader, -, hprogress⟩ := h.polled header body
      -- the header is put back, the body is requested again
      have hback : SameHeader both
          ({ both with header := some heldHeader, body := none }.requestBody both.retryDelay) :=
        ⟨rfl, rfl, rfl, hasHeader.symm, rfl⟩
      refine ⟨⟨hrequested, hheader.of_same hback, .inr ⟨rfl, _, rfl⟩, .inr rfl⟩,
        hprogress.header.of_same hback, .inr ?_⟩
      have hsame := header.sameBody
      obtain ⟨hidle, hrequests⟩ := body.idle (h.body.of_same hsame) hasBody
      rw [hsame.pendingBodyRequest] at hidle
      refine ⟨hidle, ⟨both.blockHash, both.retryDelay⟩, ?_⟩
      rw [← hsame.bodyRequests, ← hrequests]
      rfl
  | complete => rcases hround with h | h <;> cases h

/-- **A round that ends the download** resolves it, with the header that was held or
has just come. -/
theorem Fetching.ready {future : FetchFullBlockFuture} {answers : PartAnswers D} {block : Block}
    (h : Fetching D blockHash future) (hround : future.round D answers = .ready block) :
    Resolved D blockHash block ∧
      (∀ header, future.header = some header → block.toSealedHeader = header) ∧
      ∀ header, future.pendingHeaderRequest ≠ none → answers.header = some (.ok (some header)) →
        D.hashSlow header = blockHash → block.toSealedHeader = D.sealSlow header := by
  have hcases := round_cases h.header h.body answers
  rw [hround] at hcases
  cases hcases with
  | @complete between both heldHeader heldBody header body hasHeader hasBody fits =>
      obtain ⟨hrequested, hheader, -, hprogress, -⟩ := h.polled header body
      refine ⟨?_, fun held hheld => ?_, fun raw hasked hanswer hown => ?_⟩
      · rcases hheader with ⟨raw, hheld, hown, -⟩ | ⟨hmissing, -⟩
        · obtain rfl : D.sealSlow raw = heldHeader := Option.some.inj (hheld.symm.trans hasHeader)
          exact ⟨raw, heldBody, rfl, hown.trans hrequested, fits⟩
        · rw [hmissing] at hasHeader
          cases hasHeader
      · exact Option.some.inj (hasHeader.symm.trans (hprogress.kept held hheld).1)
      · have hgot := hprogress.received raw hasked hanswer (hown.trans h.requested.symm)
        exact Option.some.inj (hasHeader.symm.trans hgot)

/-- **A run keeps each part held or requested.** -/
theorem Fetching.later {future future' : FetchFullBlockFuture} (h : Fetching D blockHash future)
    (hlater : Later D future future') : Fetching D blockHash future' := by
  induction hlater with
  | refl => exact h
  | tail _ hmoves ih =>
      obtain ⟨answers, hround⟩ := hmoves
      exact (ih.round hround).1

/-- A header that is held stays held, and is not requested again. -/
theorem Fetching.kept {future future' : FetchFullBlockFuture} (h : Fetching D blockHash future)
    (hlater : Later D future future') {header : SealedHeader}
    (hheld : future.header = some header) :
    future'.header = some header ∧ future'.headerRequests = future.headerRequests := by
  induction hlater with
  | refl => exact ⟨hheld, rfl⟩
  | tail hbefore hmoves ih =>
      obtain ⟨answers, hround⟩ := hmoves
      have hkept := ((h.later hbefore).round hround).2.header.kept header ih.1
      exact ⟨hkept.1, hkept.2.trans ih.2⟩

/-- A round in which nothing is answered ends the poll. -/
theorem Fetching.silent {future : FetchFullBlockFuture} (h : Fetching D blockHash future) :
    future.round D ⟨none, none⟩ = .pending future := by
  have hcases := round_cases h.header h.body ⟨none, none⟩
  generalize future.round D ⟨none, none⟩ = result at hcases
  -- nothing is answered, so nothing changes, and one part is missing
  have hheader : ∀ {again between},
      PollsHeader D future none (again, between) → again = false ∧ between = future := by
    intro again between header
    cases header with
    | unchanged => exact ⟨rfl, rfl⟩
    | received _ answered => cases answered
    | missed _ answered => cases answered
  have hbody : ∀ {again between}, PollsBody future none (again, between) →
      again = false ∧ between = future := by
    intro again between body
    cases body with
    | unchanged => exact ⟨rfl, rfl⟩
    | received _ answered => cases answered
    | missed _ answered => cases answered
  cases hcases with
  | headerMissed header => cases (hheader header).1
  | bodyMissed header body =>
      obtain ⟨-, rfl⟩ := hheader header
      cases (hbody body).1
  | waiting header body =>
      obtain ⟨-, rfl⟩ := hheader header
      obtain ⟨-, rfl⟩ := hbody body
      rfl
  | wrongBody header body hasHeader hasBody =>
      obtain ⟨-, rfl⟩ := hheader header
      obtain ⟨-, rfl⟩ := hbody body
      rcases h.missing with hmissing | hmissing
      · cases hmissing.symm.trans hasHeader
      · cases hmissing.symm.trans hasBody
  | complete header body hasHeader hasBody =>
      obtain ⟨-, rfl⟩ := hheader header
      obtain ⟨-, rfl⟩ := hbody body
      rcases h.missing with hmissing | hmissing
      · cases hmissing.symm.trans hasHeader
      · cases hmissing.symm.trans hasBody

/-- A poll goes on only as long as requests are answered. -/
theorem Fetching.poll_ends {future : FetchFullBlockFuture} (h : Fetching D blockHash future)
    {answers : List (PartAnswers D)} (hsilent : ⟨none, none⟩ ∈ answers)
    (future' : FetchFullBlockFuture) : future.poll D answers ≠ .again future' := by
  induction answers generalizing future with
  | nil => cases hsilent
  | cons first rest ih =>
      unfold poll
      match hround : future.round D first with
      | .again between =>
          refine ih (h.round (.inl hround)).1 ((List.mem_cons.mp hsilent).resolve_left ?_)
          rintro rfl
          rw [h.silent] at hround
          cases hround
      | .pending between => exact fun hpoll => nomatch hpoll
      | .ready block => exact fun hpoll => nomatch hpoll

/-! ## Downloads -/

/-- Exactly one of the two: the part is held, or one request for it is outstanding. -/
def HeldOrRequested {α : Type} (part : Option α) (request : Option PartRequest)
    (blockHash : B256) : Prop :=
  (part.isSome ∧ request = none) ∨ (part = none ∧ ∃ delay, request = some ⟨blockHash, delay⟩)

theorem HeaderPart.heldOrRequested {future : FetchFullBlockFuture} (h : future.HeaderPart D) :
    HeldOrRequested future.header future.pendingHeaderRequest future.blockHash := by
  rcases h with ⟨header, hheld, -, hnone⟩ | ⟨hmissing, hrequest⟩
  · exact .inl ⟨by rw [hheld]; rfl, hnone⟩
  · exact .inr ⟨hmissing, hrequest⟩

theorem BodyPart.heldOrRequested {future : FetchFullBlockFuture} (h : future.BodyPart) :
    HeldOrRequested future.body future.pendingBodyRequest future.blockHash := by
  rcases h with ⟨body, hheld, hnone⟩ | ⟨hmissing, hrequest⟩
  · exact .inl ⟨by rw [hheld]; rfl, hnone⟩
  · exact .inr ⟨hmissing, hrequest⟩

/-- What every download of a full block is like, whatever the peers answer and in
whichever order. -/
structure DownloadsFullBlock (D : DownloadExternals) (retryDelay : ℕ) (blockHash : B256) :
    Prop where
  /-- It resolves to the requested block only. -/
  resolves {future answers block} : Later D (new retryDelay blockHash) future →
    future.poll D answers = .ready block → Resolved D blockHash block
  /-- When a poll is pending, what is not held is requested, and something is. -/
  pending {future future' answers} : Later D (new retryDelay blockHash) future →
    future.poll D answers = .pending future' →
      HeldOrRequested future'.header future'.pendingHeaderRequest blockHash ∧
      HeldOrRequested future'.body future'.pendingBodyRequest blockHash ∧
      (future'.pendingHeaderRequest ≠ none ∨ future'.pendingBodyRequest ≠ none)
  /-- A poll ends when nothing is answered in a round. -/
  ends {future future' answers} : Later D (new retryDelay blockHash) future →
    ⟨none, none⟩ ∈ answers → future.poll D answers ≠ .again future'
  /-- In every round, a request is sent only after the one before it was answered. -/
  sends {future future' answers} : Later D (new retryDelay blockHash) future →
    future.round D answers = .again future' ∨ future.round D answers = .pending future' →
      Sends future.headerRequests future'.headerRequests
        (future.pendingHeaderRequest ≠ none ∧ answers.header ≠ none) ∧
      Sends future.bodyRequests future'.bodyRequests
        (future.pendingBodyRequest = none ∨ answers.body ≠ none)
  /-- The requested header is held when it comes, -/
  received {future answers header} : Later D (new retryDelay blockHash) future →
    future.pendingHeaderRequest ≠ none → answers.header = some (.ok (some header)) →
    D.hashSlow header = blockHash →
      match future.round D answers with
      | .again future' => future'.header = some (D.sealSlow header)
      | .pending future' => future'.header = some (D.sealSlow header)
      | .ready block => block.toSealedHeader = D.sealSlow header
  /-- and from then on it stays, is not requested again, and is the header of the block. -/
  kept {future future' header} : Later D (new retryDelay blockHash) future →
    future.header = some header → Later D future future' →
      future'.header = some header ∧ future'.pendingHeaderRequest = none ∧
      future'.headerRequests = future.headerRequests ∧
      ∀ answers block, future'.poll D answers = .ready block → block.toSealedHeader = header

/-- **Every full block download** is safe, and waits for what it does not hold. -/
theorem downloadsFullBlock (D : DownloadExternals) (retryDelay : ℕ) (blockHash : B256) :
    DownloadsFullBlock D retryDelay blockHash where
  resolves hlater hready := by
    obtain ⟨last, hlast, answer, -, hround⟩ := round_of_poll_ready hready
    exact (((fetching_new D retryDelay blockHash).later (hlater.trans hlast)).ready hround).1
  pending {future future' answers} hlater hpending := by
    have h : Fetching D blockHash future' :=
      (fetching_new D retryDelay blockHash).later (hlater.trans (later_of_poll (.inr hpending)))
    have hheader := h.header.heldOrRequested
    have hbody := h.body.heldOrRequested
    rw [h.requested] at hheader hbody
    refine ⟨hheader, hbody, ?_⟩
    rcases h.missing with hmissing | hmissing
    · rcases hheader with ⟨hheld, -⟩ | ⟨-, delay, hrequest⟩
      · rw [hmissing] at hheld
        cases hheld
      · exact .inl (by rw [hrequest]; exact Option.some_ne_none _)
    · rcases hbody with ⟨hheld, -⟩ | ⟨-, delay, hrequest⟩
      · rw [hmissing] at hheld
        cases hheld
      · exact .inr (by rw [hrequest]; exact Option.some_ne_none _)
  ends hlater hsilent :=
    ((fetching_new D retryDelay blockHash).later hlater).poll_ends hsilent _
  sends hlater hround := by
    have hprogress := (((fetching_new D retryDelay blockHash).later hlater).round hround).2
    exact ⟨hprogress.header.sends, hprogress.bodySends⟩
  received {future answers header} hlater hasked hanswer hown := by
    have h := (fetching_new D retryDelay blockHash).later hlater
    have hown' : D.hashSlow header = future.blockHash := hown.trans h.requested.symm
    match hround : future.round D answers with
    | .again future' =>
        exact (h.round (.inl hround)).2.header.received header hasked hanswer hown'
    | .pending future' =>
        exact (h.round (.inr hround)).2.header.received header hasked hanswer hown'
    | .ready block => exact (h.ready hround).2.2 header hasked hanswer hown
  kept {future future' header} hlater hheld hafter := by
    have h := (fetching_new D retryDelay blockHash).later hlater
    obtain ⟨hheld', hrequests⟩ := h.kept hafter hheld
    refine ⟨hheld', ?_, hrequests, fun answers block hready => ?_⟩
    · rcases (h.later hafter).header with ⟨-, -, -, hnone⟩ | ⟨hmissing, -⟩
      · exact hnone
      · rw [hmissing] at hheld'
        cases hheld'
    · obtain ⟨last, hlast, answer, -, hround⟩ := round_of_poll_ready hready
      have hkept := h.kept (hafter.trans hlast) hheld
      exact ((h.later (hafter.trans hlast)).ready hround).2.1 header hkept.1

end FetchFullBlockFuture

end ZkRess
