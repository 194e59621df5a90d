import ZkRess.Properties.FutureDownloads

/-!
# Downloads that are settled

When a download ends is up to the peers: every wrong response is asked about again.  But
wrong responses do no lasting harm.  A full block is there as soon as a right header has come
and after it a right body, whatever came before and in between, as long as the requests are
answered at all (`Fetching.ready_of_obliges`).

So a poll in which the peers oblige settles all futures at once, and as many polls as there
were requests deliver one outcome for each of them (`deliversAll_of_obliging`).
-/

namespace ZkRess

variable {P : Type} {D : DownloadExternals} {codec : ProofCodec P} {blockHash : B256} {count : ℕ}

/-! ## Full blocks -/

/-- Both requests of a round are answered. -/
structure PartAnswers.Answered (round : PartAnswers D) : Prop where
  header : round.header ≠ none
  body : round.body ≠ none

/-- The round has the requested header. -/
def PartAnswers.HasHeader (round : PartAnswers D) (blockHash : B256) : Prop :=
  ∃ header, round.header = some (.ok (some header)) ∧ D.hashSlow header = blockHash

/-- The round has a body that fits the requested header. -/
def PartAnswers.HasBody (round : PartAnswers D) (blockHash : B256) : Prop :=
  ∃ body, round.body = some (.ok (some body)) ∧ ∀ header, D.hashSlow header = blockHash →
    D.validateBodyAgainstHeader body (D.sealSlow header) = .ok ()

/-- **The peers oblige**: a right header comes, and in a later round a right body; until then
all requests are answered. -/
def Obliges (D : DownloadExternals) (blockHash : B256) (answers : List (PartAnswers D)) : Prop :=
  ∃ before first between second after,
    answers = before ++ first :: (between ++ second :: after) ∧
      (∀ round ∈ before ++ first :: between, round.Answered) ∧
      first.HasHeader blockHash ∧ second.HasBody blockHash

theorem Obliges.append {answers : List (PartAnswers D)} (h : Obliges D blockHash answers)
    (more : List (PartAnswers D)) : Obliges D blockHash (answers ++ more) := by
  obtain ⟨before, first, between, second, after, rfl, hrest⟩ := h
  exact ⟨before, first, between, second, after ++ more, by simp, hrest⟩

namespace FetchFullBlockFuture

variable {future future' : FetchFullBlockFuture}

/-- Polling a request that is answered leaves the header held, if it ends the part. -/
theorem PollsHeader.held {answer : Option (Except PeerRequestError (Option D.WireHeader))}
    (h : PollsHeader D future answer (false, future')) (hpart : future.HeaderPart D)
    (hanswer : answer ≠ none) : future'.header ≠ none := by
  cases h with
  | unchanged silent =>
      rcases hpart with ⟨header, hheld, -⟩ | ⟨-, delay, hrequest⟩
      · rw [hheld]
        exact Option.some_ne_none _
      · rw [silent.resolve_right hanswer] at hrequest
        cases hrequest
  | received => exact Option.some_ne_none _

theorem PollsBody.held {answer : Option (Except PeerRequestError (Option BlockBody))}
    (h : PollsBody future answer (false, future')) (hpart : future.BodyPart)
    (hanswer : answer ≠ none) : future'.body ≠ none := by
  cases h with
  | unchanged silent =>
      rcases hpart with ⟨body, hheld, -⟩ | ⟨-, delay, hrequest⟩
      · rw [hheld]
        exact Option.some_ne_none _
      · rw [silent.resolve_right hanswer] at hrequest
        cases hrequest
  | received => exact Option.some_ne_none _

/-- A round that is answered is not pending. -/
theorem Fetching.round_of_answered (h : Fetching D blockHash future) {answers : PartAnswers D}
    (hanswered : answers.Answered) : future.round D answers ≠ .pending future' := by
  have hcases := round_cases h.header h.body answers
  intro hround
  rw [hround] at hcases
  cases hcases with
  | waiting header body missing =>
      have hheader := header.held h.header hanswered.header
      rw [← body.sameHeader.header] at hheader
      exact missing.elim hheader
        (body.held (h.body.of_same header.sameBody) hanswered.body)

/-- A header that is held is the requested one. -/
theorem Fetching.own (h : Fetching D blockHash future) {header : SealedHeader}
    (hheld : future.header = some header) :
    ∃ raw, header = D.sealSlow raw ∧ D.hashSlow raw = blockHash := by
  rcases h.header with ⟨raw, hraw, hown, -⟩ | ⟨hnone, -⟩
  · exact ⟨raw, Option.some.inj (hheld.symm.trans hraw), hown.trans h.requested⟩
  · rw [hnone] at hheld
    cases hheld

/-- **With the header held, a right body ends the download.** -/
theorem Fetching.ready_of_hasBody (h : Fetching D blockHash future)
    (hheld : future.header ≠ none) {answers : PartAnswers D} (hbody : answers.HasBody blockHash) :
    ∃ block, future.round D answers = .ready block := by
  obtain ⟨body, hanswer, hfits⟩ := hbody
  have hmissing : future.body = none := h.missing.resolve_left hheld
  have hidle : future.pendingHeaderRequest = none := by
    rcases h.header with ⟨-, -, -, hnone⟩ | ⟨hnone, -⟩
    · exact hnone
    · exact absurd hnone hheld
  have hasked : future.pendingBodyRequest ≠ none := by
    rcases h.body with ⟨held, hbody, -⟩ | ⟨-, delay, hrequest⟩
    · rw [hmissing] at hbody
      cases hbody
    · rw [hrequest]
      exact Option.some_ne_none _
  -- nothing happens to the header, and the body is the one that has come
  have hsame : ∀ {again between}, PollsHeader D future answers.header (again, between) →
      again = false ∧ between = future := by
    intro again between header
    cases header with
    | unchanged => exact ⟨rfl, rfl⟩
    | received asked => exact absurd hidle asked
    | missed asked => exact absurd hidle asked
  have hgot : ∀ {again both}, PollsBody future answers.body (again, both) →
      again = false ∧ both.body = some body := by
    intro again both polled
    cases polled with
    | unchanged silent =>
        refine absurd silent (not_or.mpr ⟨hasked, ?_⟩)
        rw [hanswer]
        exact Option.some_ne_none _
    | received asked answered =>
        rw [hanswer] at answered
        cases answered
        exact ⟨rfl, rfl⟩
    | missed asked answered other =>
        rw [hanswer] at answered
        exact absurd (Option.some.inj answered).symm (other body)
  have hcases := round_cases h.header h.body answers
  generalize future.round D answers = result at hcases
  cases hcases with
  | headerMissed header => cases (hsame header).1
  | bodyMissed header body =>
      obtain ⟨-, rfl⟩ := hsame header
      cases (hgot body).1
  | waiting header body missing =>
      obtain ⟨-, rfl⟩ := hsame header
      rw [body.sameHeader.header, (hgot body).2] at missing
      exact absurd missing (not_or.mpr ⟨hheld, Option.some_ne_none _⟩)
  | wrongBody header polled hasHeader hasBody wrong =>
      obtain ⟨-, rfl⟩ := hsame header
      rw [polled.sameHeader.header] at hasHeader
      obtain ⟨raw, rfl, hown⟩ := h.own hasHeader
      obtain rfl := Option.some.inj (hasBody.symm.trans (hgot polled).2)
      exact absurd (hfits raw hown) wrong
  | complete => exact ⟨_, rfl⟩

/-- A right header is held after its round. -/
theorem Fetching.holds_of_hasHeader (h : Fetching D blockHash future) {answers : PartAnswers D}
    (hheader : answers.HasHeader blockHash) (hround : future.round D answers = .again future') :
    future'.header ≠ none := by
  obtain ⟨header, hanswer, hown⟩ := hheader
  have hprogress := (h.round (.inl hround)).2.header
  cases hheld : future.header with
  | some held =>
      rw [(hprogress.kept held hheld).1]
      exact Option.some_ne_none _
  | none =>
      have hasked : future.pendingHeaderRequest ≠ none := by
        rcases h.header with ⟨held, hsome, -⟩ | ⟨-, delay, hrequest⟩
        · rw [hheld] at hsome
          cases hsome
        · rw [hrequest]
          exact Option.some_ne_none _
      rw [hprogress.received header hasked hanswer (hown.trans h.requested.symm)]
      exact Option.some_ne_none _

/-- A header that is held waits for a right body. -/
theorem Fetching.ready_of_held (h : Fetching D blockHash future) (hheld : future.header ≠ none)
    {between after : List (PartAnswers D)} {second : PartAnswers D}
    (hanswered : ∀ round ∈ between, round.Answered) (hbody : second.HasBody blockHash) :
    ∃ block, future.poll D (between ++ second :: after) = .ready block := by
  induction between generalizing future with
  | nil =>
      obtain ⟨block, hready⟩ := h.ready_of_hasBody hheld hbody
      exact ⟨block, by rw [List.nil_append, FetchFullBlockFuture.poll, hready]⟩
  | cons round between ih =>
      rw [List.cons_append, FetchFullBlockFuture.poll]
      cases hround : future.round D round with
      | again future' =>
          have hstep := h.round (.inl hround)
          refine ih hstep.1 ?_ fun other hmem => hanswered other (List.mem_cons_of_mem _ hmem)
          obtain ⟨header, hheader⟩ := Option.ne_none_iff_exists'.mp hheld
          rw [(hstep.2.header.kept header hheader).1]
          exact Option.some_ne_none _
      | pending future' =>
          exact absurd hround (h.round_of_answered (hanswered round List.mem_cons_self))
      | ready block => exact ⟨block, rfl⟩

/-- **A download ends when the peers oblige.** -/
theorem Fetching.ready_of_obliges (h : Fetching D blockHash future)
    {answers : List (PartAnswers D)} (hobliges : Obliges D blockHash answers) :
    ∃ block, future.poll D answers = .ready block := by
  obtain ⟨before, first, between, second, after, rfl, hanswered, hheader, hbody⟩ := hobliges
  induction before generalizing future with
  | nil =>
      rw [List.nil_append] at hanswered ⊢
      rw [FetchFullBlockFuture.poll]
      cases hround : future.round D first with
      | again future' =>
          exact (h.round (.inl hround)).1.ready_of_held (h.holds_of_hasHeader hheader hround)
            (fun round hmem => hanswered round (List.mem_cons_of_mem _ hmem)) hbody
      | pending future' =>
          exact absurd hround (h.round_of_answered (hanswered first List.mem_cons_self))
      | ready block => exact ⟨block, rfl⟩
  | cons round before ih =>
      rw [List.cons_append] at hanswered ⊢
      rw [FetchFullBlockFuture.poll]
      cases hround : future.round D round with
      | again future' =>
          exact ih (h.round (.inl hround)).1
            fun other hmem => hanswered other (List.mem_cons_of_mem _ hmem)
      | pending future' =>
          exact absurd hround (h.round_of_answered (hanswered round List.mem_cons_self))
      | ready block => exact ⟨block, rfl⟩

end FetchFullBlockFuture

/-! ## Ancestors and proofs -/

namespace FetchHeadersRangeFuture

/-- Whether a response is accepted depends on what is asked for only. -/
theorem onResponse_congr {future future' : FetchHeadersRangeFuture}
    (h : future.request = future'.request) (response : D.HeadersResponse) :
    future.onResponse D response = future'.onResponse D response := by
  unfold onResponse
  rw [h]

/-- A range is there as soon as a response is accepted. -/
theorem ready_of_accepted {future : FetchHeadersRangeFuture} {responses : List D.HeadersResponse}
    (h : ∃ response ∈ responses, future.onResponse D response ≠ none) :
    ∃ headers, future.poll D responses = .ready headers := by
  induction responses generalizing future with
  | nil =>
      obtain ⟨_, hmem, -⟩ := h
      cases hmem
  | cons first responses ih =>
      rw [poll]
      cases hfirst : future.onResponse D first with
      | some headers => exact ⟨headers, rfl⟩
      | none =>
          obtain ⟨response, hmem, haccepted⟩ := h
          refine ih ⟨response, (List.mem_cons.mp hmem).resolve_left ?_, haccepted⟩
          rintro rfl
          exact haccepted hfirst

end FetchHeadersRangeFuture

/-- Headers below a block that are accepted. -/
def HasAncestors (D : DownloadExternals) (count : ℕ) (block : Block)
    (responses : List D.HeadersResponse) : Prop :=
  ∃ response ∈ responses,
    (FetchHeadersRangeFuture.new 0 ⟨block.parentHash, count⟩).onResponse D response ≠ none

namespace FetchFullBlockWithAncestorsFuture

variable {future : FetchFullBlockWithAncestorsFuture} {answers : List (PartAnswers D)}
  {responses : List D.HeadersResponse}

theorem ready_of_hasAncestors (future : FetchFullBlockWithAncestorsFuture) {block : Block}
    {fut : FetchHeadersRangeFuture} (hrequest : fut.request = ⟨block.parentHash, count⟩)
    (hancestors : HasAncestors D count block responses) :
    ∃ ancestors, future.pollAncestors D block fut responses = .ready block ancestors := by
  obtain ⟨response, hmem, haccepted⟩ := hancestors
  have hnew : (FetchHeadersRangeFuture.new 0 ⟨block.parentHash, count⟩).request
      = ⟨block.parentHash, count⟩ := rfl
  have hsame := FetchHeadersRangeFuture.onResponse_congr (hrequest.trans hnew.symm) response
  obtain ⟨ancestors, hready⟩ :=
    FetchHeadersRangeFuture.ready_of_accepted ⟨response, hmem, hsame ▸ haccepted⟩
  exact ⟨ancestors, by rw [pollAncestors, hready]⟩

/-- **The block and its ancestors are there when the peers oblige.** -/
theorem Downloading.ready_of_obliges (h : Downloading D blockHash count future)
    (hobliges : Obliges D blockHash answers)
    (hancestors : ∀ block, FetchFullBlockFuture.Resolved D blockHash block →
      HasAncestors D count block responses) :
    ∃ block ancestors, future.poll D answers responses = .ready block ancestors := by
  have hstage := h.stage
  unfold FetchFullBlockWithAncestorsFuture.poll
  match future.state, hstage with
  | .fullBlock fut, .fullBlock fetching =>
      obtain ⟨block, hready⟩ := fetching.ready_of_obliges hobliges
      obtain ⟨last, hlast, answer, -, hround⟩ := FetchFullBlockFuture.round_of_poll_ready hready
      have hresolved := ((fetching.later hlast).ready hround).1
      have hrequest : (FetchHeadersRangeFuture.new fut.retryDelay
          ⟨block.parentHash, future.ancestorCount⟩).request = ⟨block.parentHash, count⟩ := by
        rw [h.ancestorCount]
        rfl
      obtain ⟨ancestors, hdone⟩ := ready_of_hasAncestors future hrequest (hancestors block hresolved)
      exact ⟨block, ancestors, by simp only [hready, hdone]⟩
  | .ancestors block fut, .ancestors hresolved hrequest =>
      obtain ⟨ancestors, hdone⟩ := ready_of_hasAncestors future hrequest (hancestors block hresolved)
      exact ⟨block, ancestors, hdone⟩

end FetchFullBlockWithAncestorsFuture

/-! ## All of them -/

namespace FutureDownloader

/-- **The peers oblige for all requests in flight**, after any number of wrong responses. -/
structure Obliging (D : DownloadExternals) (codec : ProofCodec P) (downloader : FutureDownloader P)
    (answers : NetworkAnswers D) : Prop where
  fullBlocks : ∀ request ∈ downloader.inflightFullBlockRequests,
    Obliges D request.blockHash (answers.fullBlock request.blockHash)
  proofs : ∀ request ∈ downloader.inflightProofRequests,
    ∃ response ∈ answers.proof request.blockHash, FetchProofFuture.onResponse codec response ≠ none
  finalizedBlocks : ∀ request ∈ downloader.inflightFinalizedBlockRequests,
    Obliges D request.blockHash (answers.finalizedBlock request.blockHash).1 ∧
      ∀ block, FetchFullBlockFuture.Resolved D request.blockHash block →
        HasAncestors D 256 block (answers.finalizedBlock request.blockHash).2

variable {calls : List (FutureCall D)} {downloader : FutureDownloader P}
  {answers : NetworkAnswers D} {delivered : List (DownloadData P)}

/-- A settled future leaves data that is for its request. -/
def Settles {F : Type} (poll : FuturePoll F (DownloadData P)) (request : RequestKind × B256) :
    Prop :=
  ∃ data, poll = .ready data ∧ data.request = request

theorem Obliging.fullBlock (hobliging : Obliging D codec downloader answers)
    (h : InFlight D calls downloader) (request : FetchFullBlockFuture)
    (hmem : request ∈ downloader.inflightFullBlockRequests) :
    Settles (pollFullBlock (P := P) answers request) (.fullBlock, request.blockHash) := by
  have hfetching := (h.fullBlocks request hmem).2
  obtain ⟨block, hready⟩ :=
    hfetching.ready_of_obliges ((hobliging.fullBlocks request hmem).append [⟨none, none⟩])
  have hends := hfetching.pollUnpin (answers.fullBlock request.blockHash)
  have hpoll : request.pollUnpin D (answers.fullBlock request.blockHash) = .ready block := by
    rw [FetchFullBlockFuture.pollUnpin, hready]
  rw [hpoll] at hends
  cases hends with
  | ready resolved =>
      refine ⟨.fullBlock block, by rw [pollFullBlock, hpoll]; rfl, ?_⟩
      rw [DownloadData.request, resolved.hash]

theorem Obliging.proof (hobliging : Obliging D codec downloader answers)
    (request : FetchProofFuture) (hmem : request ∈ downloader.inflightProofRequests) :
    Settles (pollProof codec answers request) (.proof, request.blockHash) := by
  have hsome : (answers.proof request.blockHash).findSome? (FetchProofFuture.onResponse codec)
      ≠ none := by
    obtain ⟨response, hresponse, haccepted⟩ := hobliging.proofs request hmem
    exact fun hnone => haccepted (List.findSome?_eq_none_iff.mp hnone response hresponse)
  obtain ⟨proof, hfirst⟩ := Option.ne_none_iff_exists'.mp hsome
  rw [← FetchProofFuture.pollUnpin_data request] at hfirst
  refine ⟨.proof request.blockHash proof, ?_, rfl⟩
  rw [pollProof, FuturePoll.data_eq_some.mp hfirst]
  rfl

theorem Obliging.finalizedBlock (hrange : D.ChecksRange) (hparent : D.ChecksParent)
    (hobliging : Obliging D codec downloader answers) (h : InFlight D calls downloader)
    (request : FetchFullBlockWithAncestorsFuture)
    (hmem : request ∈ downloader.inflightFinalizedBlockRequests) :
    Settles (pollFinalizedBlock (P := P) answers request) (.finalizedBlock, request.blockHash) := by
  have hdownloading := (h.finalizedBlocks request hmem).2
  obtain ⟨hobliges, hancestors⟩ := hobliging.finalizedBlocks request hmem
  obtain ⟨block, ancestors, hready⟩ :=
    hdownloading.ready_of_obliges (hobliges.append [⟨none, none⟩]) hancestors
  have hends := hdownloading.pollUnpin hrange hparent (answers.finalizedBlock request.blockHash)
  have hpoll : request.pollUnpin D (answers.finalizedBlock request.blockHash)
      = .ready (block, ancestors) := by
    rw [FetchFullBlockWithAncestorsFuture.pollUnpin, hready]
  rw [hpoll] at hends
  cases hends with
  | ready chain =>
      refine ⟨.finalizedBlock block ancestors, by rw [pollFinalizedBlock, hpoll]; rfl, ?_⟩
      rw [DownloadData.request, chain.requested]

/-- The data of settled futures is for their requests; the order does not matter. -/
private theorem request_of_settles {F : Type} {pollUnpin : F → FuturePoll F (DownloadData P)}
    {request : F → RequestKind × B256} {futures : List F}
    (h : ∀ future ∈ futures, Settles (pollUnpin future) (request future)) :
    ((futures.reverse.filterMap fun future => (pollUnpin future).data).map
      DownloadData.request).Perm (futures.map request) := by
  induction futures with
  | nil => exact .refl _
  | cons future futures ih =>
      obtain ⟨data, hready, hrequest⟩ := h future List.mem_cons_self
      have hsome : (pollUnpin future).data = some data := FuturePoll.data_eq_some.mpr hready
      rw [List.reverse_cons, List.filterMap_append, List.map_append, List.map_cons, ← hrequest]
      simp only [List.filterMap_cons, hsome, List.filterMap_nil, List.map_cons, List.map_nil]
      exact (List.perm_append_singleton _ _).trans
        ((ih fun other hmem => h other (List.mem_cons_of_mem _ hmem)).cons _)

/-- No settled future is put back. -/
private theorem nil_of_settles {F : Type} {pollUnpin : F → FuturePoll F (DownloadData P)}
    {request : F → RequestKind × B256} {futures kept : List F}
    (h : ∀ future ∈ futures, Settles (pollUnpin future) (request future))
    (hkept : kept.Perm (futures.filterMap fun future => (pollUnpin future).future)) :
    kept = [] := by
  have hnone : futures.filterMap (fun future => (pollUnpin future).future) = [] := by
    refine List.filterMap_eq_nil_iff.mpr fun future hmem => ?_
    obtain ⟨data, hready, -⟩ := h future hmem
    rw [hready]
    rfl
  rw [hnone] at hkept
  exact hkept.eq_nil

/-- **A poll settles everything when the peers oblige.** -/
theorem Obliging.poll (hrange : D.ChecksRange) (hparent : D.ChecksParent)
    (hobliging : Obliging D codec downloader answers) (h : InFlight D calls downloader)
    (hdrained : downloader.outcomes = []) :
    ((downloader.settledData D codec answers).map DownloadData.request).Perm
        downloader.requests.inFlight ∧
      downloader.poll D codec answers = ((downloader.settledData D codec answers).head?,
        ⟨downloader.retryDelay, [], [], [], (downloader.settledData D codec answers).tail⟩) := by
  obtain ⟨finalized, fullBlocks, proofs, hfinalized, hfullBlocks, hproofs, heq⟩ :=
    poll_of_drained hdrained codec answers
  have hsettled₁ := hobliging.finalizedBlock hrange hparent h
  have hsettled₂ := hobliging.fullBlock h
  have hsettled₃ := hobliging.proof
  constructor
  · unfold settledData EngineDownloader.inFlight requests
    simp only [List.map_append, List.map_map]
    exact ((request_of_settles hsettled₁).append (request_of_settles hsettled₂)).append
      (request_of_settles hsettled₃)
  · rw [heq, nil_of_settles hsettled₁ hfinalized, nil_of_settles hsettled₂ hfullBlocks,
      nil_of_settles hsettled₃ hproofs]

/-- Polls drain the queue first, whatever the peers respond. -/
theorem Run.drain (run : Run D codec calls delivered downloader)
    {polls : List (NetworkAnswers D)} (hcount : polls.length = downloader.outcomes.length) :
    Run D codec (calls ++ polls.map .poll) (delivered ++ downloader.outcomes)
      { downloader with outcomes := [] } := by
  induction polls generalizing calls delivered downloader with
  | nil =>
      have hnil : downloader.outcomes = [] := List.length_eq_zero_iff.mp hcount.symm
      rw [List.map_nil, List.append_nil, hnil, List.append_nil]
      rw [← hnil]
      exact run
  | cons answers polls ih =>
      cases hqueue : downloader.outcomes with
      | nil =>
          rw [hqueue] at hcount
          cases hcount
      | cons outcome outcomes =>
          have hnext := run.call (.poll answers)
          rw [FutureDownloader.call, poll_of_queued hqueue] at hnext
          rw [hqueue, List.length_cons, List.length_cons] at hcount
          have hrest := ih hnext (Nat.succ.inj hcount)
          rw [List.append_assoc, List.append_assoc] at hrest
          exact hrest

/-- **Every request is answered once the peers oblige**: as many polls as there are outcomes
queued and requests in flight deliver an outcome for each of them, and nothing else, and leave
the downloader idle. -/
theorem deliversAll_of_obliging (hrange : D.ChecksRange) (hparent : D.ChecksParent)
    (run : Run D codec calls delivered downloader) {polls : List (NetworkAnswers D)}
    (hobliging : ∀ answers ∈ polls, Obliging D codec downloader answers)
    (hcount : polls.length
      = downloader.outcomes.length + downloader.requests.inFlight.length) :
    ∃ outcomes downloader',
      Run D codec (calls ++ polls.map .poll) (delivered ++ downloader.outcomes ++ outcomes)
        downloader' ∧
      (outcomes.map DownloadData.request).Perm downloader.requests.inFlight ∧
      downloader'.requests.Idle := by
  -- first the queue
  obtain ⟨first, rest, rfl, hfirst⟩ : ∃ first rest, polls = first ++ rest ∧
      first.length = downloader.outcomes.length :=
    ⟨polls.take downloader.outcomes.length, polls.drop downloader.outcomes.length,
      (List.take_append_drop _ _).symm, by rw [List.length_take]; omega⟩
  have hdrained := run.drain hfirst
  have hrest : rest.length = downloader.requests.inFlight.length := by
    rw [List.length_append] at hcount
    omega
  rw [List.map_append, ← List.append_assoc]
  cases rest with
  | nil =>
      have hnone : downloader.requests.inFlight = [] := List.length_eq_zero_iff.mp hrest.symm
      unfold EngineDownloader.inFlight at hnone
      simp only [List.append_eq_nil_iff, List.map_eq_nil_iff] at hnone
      refine ⟨[], { downloader with outcomes := [] }, ?_, ?_, hnone.1.2, hnone.2, hnone.1.1, rfl⟩
      · rw [List.map_nil, List.append_nil, List.append_nil]
        exact hdrained
      · unfold EngineDownloader.inFlight
        rw [hnone.1.1, hnone.1.2, hnone.2]
        exact .refl _
  | cons answers later =>
      -- then one poll that settles everything, and the queue again
      have hsame := hobliging answers (List.mem_append_right _ List.mem_cons_self)
      have hobliges : Obliging D codec { downloader with outcomes := [] } answers :=
        ⟨hsame.fullBlocks, hsame.proofs, hsame.finalizedBlocks⟩
      obtain ⟨hperm, hpoll⟩ :=
        hobliges.poll hrange hparent (kept_of_run hrange hparent hdrained).inFlight rfl
      have hnext := hdrained.call (.poll answers)
      rw [FutureDownloader.call, hpoll] at hnext
      have hlength : later.length
          = (settledData D codec { downloader with outcomes := [] } answers).tail.length := by
        have hsame := hperm.length_eq
        rw [List.length_map] at hsame
        rw [List.length_tail, hsame]
        exact (Nat.sub_eq_of_eq_add hrest.symm).symm
      have hdone := hnext.drain hlength
      simp only [List.append_assoc, toList_head?_append_tail] at hdone
      refine ⟨settledData D codec { downloader with outcomes := [] } answers,
        ⟨downloader.retryDelay, [], [], [], []⟩, ?_, hperm, rfl, rfl, rfl, rfl⟩
      simp only [List.append_assoc]
      exact hdone

end FutureDownloader

/-! ## Two requests -/

namespace SmallWorld

/-- Another header, then the header with another body, then the body; and for each proof an
error, and the proof. -/
def lateAnswers : NetworkAnswers downloads :=
  ⟨fun _ => [⟨some (.ok (some (header 4 3 3))), some (.ok none)⟩,
    ⟨some (.ok (some (header 3 2 2))), some (.ok (some [1]))⟩, ⟨none, some (.ok (some []))⟩],
    fun _ => [.error .requestDropped, .ok [1]], fun _ => ([], [])⟩

theorem obliges_lateAnswers : Obliges downloads 3 (lateAnswers.fullBlock 3) := by
  refine ⟨[_], _, [], _, [], rfl, ?_, ⟨_, rfl, rfl⟩, [], rfl, fun _ _ => rfl⟩
  exact List.forall_mem_cons.mpr ⟨⟨Option.some_ne_none _, Option.some_ne_none _⟩,
    List.forall_mem_singleton.mpr ⟨Option.some_ne_none _, Option.some_ne_none _⟩⟩

/-- A block and a proof are asked for, and two polls deliver them. -/
theorem deliversAll_of_lateAnswers :
    ∃ outcomes downloader,
      FutureDownloader.Run downloads bitCodec
        [.downloadFullBlock 3, .downloadProof 4, .poll lateAnswers, .poll lateAnswers] outcomes
        downloader ∧
      (outcomes.map DownloadData.request).Perm [(.fullBlock, 3), (.proof, 4)] ∧
      downloader.requests.Idle := by
  have run := ((@FutureDownloader.Run.new Bool downloads bitCodec).call
    (.downloadFullBlock 3)).call (.downloadProof 4)
  refine FutureDownloader.deliversAll_of_obliging downloads_checksRange downloads_checksParent run
    (fun answers hmem => ?_) (rfl : [lateAnswers, lateAnswers].length = 2)
  obtain rfl : answers = lateAnswers := by simpa using hmem
  refine ⟨List.forall_mem_singleton.mpr obliges_lateAnswers, List.forall_mem_singleton.mpr ?_,
    List.forall_mem_nil _⟩
  exact ⟨.ok [1], List.mem_cons_of_mem _ List.mem_cons_self, Option.some_ne_none true⟩

end SmallWorld

end ZkRess
