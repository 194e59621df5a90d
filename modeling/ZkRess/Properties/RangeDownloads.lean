import ZkRess.Properties.BlockRanges
import ZkRess.Properties.HeaderDownloads

/-!
# A range of blocks from a correct peer

`FetchFullBlockRangeFuture` from its creation: first the headers of the range are downloaded,
then their bodies, in as many requests as it takes.  It is served by the RPC adapter, whose
provider may fail at any lookup and answers only so much at once; a request may also fail
altogether.

The adapter's responses are then parts from the front of the right ones
(`onHeadersRequest_initial`, `onBlockBodiesRequest_initial`).  A part of the headers is refused,
and a part of the bodies is kept, so the future is settled with the blocks of the chain or not
at all, and it is settled if often enough the lookups it depends on do not fail.
-/

namespace ZkRess

/-! ## The responder for bodies -/

/-- `RpcNetworkAdapter`, with the bodies of its provider: their sizes, and the bound on how many
are sent. -/
structure RpcBlockAdapter (D : DownloadExternals) extends RpcNetworkAdapter D where
  bodyByHash : B256 → Option BlockBody
  bodyLength : BlockBody → ℕ
  maxBodiesServe : ℕ

namespace RpcBlockAdapter

variable {D : DownloadExternals} (adapter : RpcBlockAdapter D)

/-- The bodies of the blocks, up to the first that is missing, or until they are enough. -/
def collectBodies : ℕ → ℕ → List (Option BlockBody) → List BlockBody
  | _, _, [] => []
  | _, _, none :: _ => []
  | count, totalBytes, some body :: blocks =>
      let totalBytes := totalBytes + adapter.bodyLength body
      if adapter.maxBodiesServe ≤ count + 1 ∨ adapter.softResponseLimit < totalBytes then [body]
      else body :: collectBodies (count + 1) totalBytes blocks

def onBlockBodiesRequest (request : List B256) : List BlockBody :=
  adapter.collectBodies 0 0 (request.map adapter.bodyByHash)

end RpcBlockAdapter

/-! ## The future, from its creation -/

/-- `FullBlockRangeDownloadState`. -/
inductive FullBlockRangeDownloadState
  | headers (fut : FetchHeadersRangeFuture)
  | bodies (state : FullBlockRangeBodiesDownloadState)

/-- `FetchFullBlockRangeFuture`: the request for the range, and how far it is. -/
structure FullBlockRangeDownload where
  retryDelay : ℕ
  request : GetHeaders
  state : FullBlockRangeDownloadState

/-- What a poll ends with. -/
inductive RangeDownloadPoll
  | pending (download : FullBlockRangeDownload)
  | ready (blocks : List Block)

/-- What the network answers in a round, to whichever request is in flight. -/
structure RangeAnswers (D : DownloadExternals) where
  headers : GetHeaders → D.HeadersResponse
  bodies : List B256 → Except PeerRequestError (List BlockBody)

namespace FullBlockRangeDownload

variable (D : DownloadExternals)

/-- Create new fetch full block range future. -/
def new (retryDelay : ℕ) (request : GetHeaders) : FullBlockRangeDownload :=
  ⟨retryDelay, request, .headers (.new retryDelay request)⟩

/-- The part that downloads bodies. -/
def bodiesFuture (download : FullBlockRangeDownload) : FetchFullBlockRangeFuture :=
  ⟨D.validateBodyAgainstHeader, download.retryDelay⟩

/-- A round: the request in flight is answered. -/
def round (download : FullBlockRangeDownload) (answers : RangeAnswers D) : RangeDownloadPoll :=
  match download.state with
  | .headers fut =>
      match fut.onResponse D (answers.headers fut.request) with
      | none => .pending { download with state := .headers fut.requestHeaders }
      | some headers =>
          .pending { download with state := .bodies (FetchFullBlockRangeFuture.start headers) }
  | .bodies state =>
      match (download.bodiesFuture D).onResponse state (answers.bodies state.fut.hashes) with
      | .pending state => .pending { download with state := .bodies state }
      | .ready blocks => .ready blocks

/-- Poll through the rounds; a resolved future is not polled again. -/
def poll (download : FullBlockRangeDownload) : List (RangeAnswers D) → RangeDownloadPoll
  | [] => .pending download
  | answers :: rounds =>
      match download.round D answers with
      | .pending download => poll download rounds
      | .ready blocks => .ready blocks

end FullBlockRangeDownload

/-! ## A provider that fails at times -/

variable {D : DownloadExternals} {chain : List D.WireHeader} {start : D.WireHeader} {limit : ℕ}
  {body : D.WireHeader → BlockBody}

namespace RpcBlockAdapter

variable {adapter : RpcBlockAdapter D}

/-- **Glimpses of a chain**: each lookup of a block of the chain finds it, or fails. -/
structure Glimpses (adapter : RpcBlockAdapter D) (chain : List D.WireHeader)
    (body : D.WireHeader → BlockBody) : Prop where
  byHash : ∀ header ∈ chain, ∀ found, adapter.blockByHash (D.hashSlow header) = some found →
    found = header
  byNumber : ∀ number < chain.length, ∀ found, adapter.blockByNumber number = some found →
    chain[number]? = some found
  bodies : ∀ header ∈ chain, ∀ found, adapter.bodyByHash (D.hashSlow header) = some found →
    found = body header

/-- The headers of a response are the right ones, up to a failing lookup or the limit. -/
theorem collectHeaders_initial {totalBytes : ℕ} {blocks : List (Option D.WireHeader)}
    {headers : List D.WireHeader} (hlength : blocks.length = headers.length)
    (hright : ∀ (i : ℕ) (found : D.WireHeader), blocks[i]? = some (some found) →
      headers[i]? = some found) :
    adapter.collectHeaders totalBytes blocks <+: headers := by
  induction blocks generalizing totalBytes headers with
  | nil => exact List.nil_prefix
  | cons block blocks ih =>
      cases headers with
      | nil => cases hlength
      | cons header headers =>
          cases block with
          | none => exact List.nil_prefix
          | some found =>
              obtain rfl : header = found := Option.some.inj (hright 0 found rfl)
              unfold RpcNetworkAdapter.collectHeaders
              simp only
              split
              · exact ⟨headers, rfl⟩
              · exact (List.prefix_cons_inj _).mpr (ih (Nat.succ.inj hlength)
                  fun i found hfound => hright (i + 1) found hfound)

/-- **A response for headers** is the correct one, up to a failing lookup or the limit. -/
theorem onHeadersRequest_initial (hglimpses : adapter.Glimpses chain body)
    (h : ChainFromGenesis D chain) (hparent : D.ChecksParent) (hstart : start ∈ chain)
    (hlimit : 1 ≤ limit) :
    adapter.onHeadersRequest ⟨D.hashSlow start, limit⟩ <+: honestResponse chain start limit := by
  have hlt := (List.getElem?_eq_some_iff.mp (h.getElem_number hparent hstart)).1
  unfold RpcNetworkAdapter.onHeadersRequest
  cases hfound : adapter.blockByHash (D.hashSlow start) with
  | none => exact List.nil_prefix
  | some found =>
      obtain rfl := hglimpses.byHash start hstart found hfound
      rw [honestResponse_eq_cons h hparent hstart hlimit]
      simp only
      split
      · exact ⟨_, rfl⟩
      · refine (List.prefix_cons_inj _).mpr ?_
        generalize hnumber : (D.fields found).number = number at hlt ⊢
        generalize hcount : min (limit - 1) adapter.maxHeadersServe = count
        have hle : count ≤ limit - 1 := hcount ▸ Nat.min_le_left _ _
        have hshorter : (chain.take number).reverse.take count
            <+: (chain.take number).reverse.take (limit - 1) := List.take_prefix_take_left hle
        refine (collectHeaders_initial ?_ ?_).trans hshorter
        · rw [List.length_map, List.length_reverse, List.length_range', List.length_take,
            List.length_reverse, List.length_take]
          omega
        · intro i found hget
          rw [List.getElem?_map, Option.map_eq_some_iff] at hget
          obtain ⟨n, hn, hfound⟩ := hget
          have hi := (List.getElem?_eq_some_iff.mp hn).1
          rw [List.length_reverse, List.length_range'] at hi
          rw [List.getElem?_reverse (by rwa [List.length_range']), List.length_range',
            List.getElem?_range' (by omega)] at hn
          obtain rfl := Option.some.inj hn
          have hright := hglimpses.byNumber _ (by omega) found hfound
          rw [List.getElem?_take_of_lt (by omega), List.getElem?_reverse
            (by rw [List.length_take]; omega), List.length_take,
            List.getElem?_take_of_lt (by omega), ← hright]
          congr 1
          omega

/-- The bodies of a response are the right ones, up to a failing lookup or the limit. -/
theorem collectBodies_initial (hglimpses : adapter.Glimpses chain body)
    {headers : List D.WireHeader} (hmem : ∀ header ∈ headers, header ∈ chain)
    {count totalBytes : ℕ} :
    adapter.collectBodies count totalBytes
      ((headers.map D.hashSlow).map adapter.bodyByHash) <+: headers.map body := by
  induction headers generalizing count totalBytes with
  | nil => exact List.nil_prefix
  | cons header headers ih =>
      rw [List.forall_mem_cons] at hmem
      rw [List.map_cons, List.map_cons, List.map_cons]
      cases hfound : adapter.bodyByHash (D.hashSlow header) with
      | none => exact List.nil_prefix
      | some found =>
          obtain rfl := hglimpses.bodies header hmem.1 found hfound
          unfold collectBodies
          simp only
          split
          · exact ⟨headers.map body, rfl⟩
          · exact (List.prefix_cons_inj _).mpr (ih hmem.2)

/-- **A response for bodies** is the right one, up to a failing lookup or the limit. -/
theorem onBlockBodiesRequest_initial (hglimpses : adapter.Glimpses chain body)
    {headers : List D.WireHeader} (hmem : ∀ header ∈ headers, header ∈ chain) :
    adapter.onBlockBodiesRequest (headers.map D.hashSlow) <+: headers.map body :=
  collectBodies_initial hglimpses hmem

/-- It is not empty, if the first lookup does not fail. -/
theorem onBlockBodiesRequest_ne_nil {hash : B256} {hashes : List B256}
    (hfound : adapter.bodyByHash hash ≠ none) :
    adapter.onBlockBodiesRequest (hash :: hashes) ≠ [] := by
  obtain ⟨body, hbody⟩ := Option.ne_none_iff_exists'.mp hfound
  unfold onBlockBodiesRequest
  rw [List.map_cons, hbody]
  unfold collectBodies
  simp only
  split <;> exact List.cons_ne_nil _ _

end RpcBlockAdapter

/-! ## The download -/

/-- A round in which the adapter answers, or the request fails. -/
def RangeAnswers.served (adapter : Except PeerRequestError (RpcBlockAdapter D)) :
    RangeAnswers D where
  headers request := adapter.map fun adapter => adapter.onHeadersRequest request
  bodies request := adapter.map fun adapter => adapter.onBlockBodiesRequest request

/-- The blocks of the range: the headers of a correct response, each with its own body. -/
def rangeBlocks (chain : List D.WireHeader) (body : D.WireHeader → BlockBody)
    (start : D.WireHeader) (limit : ℕ) : List Block :=
  (honestResponse chain start limit).map fun header =>
    .fromSealedParts (D.sealSlow header) (body header)

/-- **A round that leads on**: the provider of the adapter has the whole chain, and the headers of
the range are within the bounds of a response. -/
structure RpcBlockAdapter.Complete (adapter : RpcBlockAdapter D) (chain : List D.WireHeader)
    (body : D.WireHeader → BlockBody) (start : D.WireHeader) (limit : ℕ) : Prop where
  serves : adapter.Serves chain
  bodies : ∀ header ∈ chain, adapter.bodyByHash (D.hashSlow header) = some (body header)
  maxHeaders : limit - 1 ≤ adapter.maxHeadersServe
  fits : ((honestResponse chain start limit).map adapter.length).sum ≤ adapter.softResponseLimit

namespace FetchFullBlockRangeFuture

variable {future : FetchFullBlockRangeFuture} {state : FullBlockRangeBodiesDownloadState}

/-- Bodies from the front of the right ones are all kept. -/
theorem kept_of_initial {headers : List SealedHeader} {bodies pending : List BlockBody}
    (hright : List.Forall₂ (fun header body => future.Valid body header) headers bodies)
    (hpending : pending <+: bodies) : future.kept headers pending = pending := by
  induction hright generalizing pending with
  | nil =>
      rw [List.prefix_nil.mp hpending]
      rfl
  | cons hvalid hright ih =>
      cases pending with
      | nil =>
          unfold kept
          rw [List.zip_nil_right, List.filter_nil, List.map_nil]
      | cons body pending =>
          obtain ⟨rfl, hlater⟩ := List.cons_prefix_cons.mp hpending
          rw [kept_cons_of_valid hvalid, ih hlater]

/-- A future that goes on lacks bodies. -/
theorem missing_of_pending {response : Except PeerRequestError (List BlockBody)}
    {state' : FullBlockRangeBodiesDownloadState}
    (hround : future.onResponse state response = .pending state') (hmissing : state.missing ≠ []) :
    state'.missing ≠ [] := by
  cases response with
  | error error =>
      cases hround
      exact hmissing
  | ok pending =>
      cases pending with
      | nil =>
          cases hround
          exact hmissing
      | cons body pending =>
          simp only [onResponse] at hround
          split at hround
          · cases hround
          · next hlacking =>
              cases hround
              exact hlacking

/-- **A round with right bodies**: they are added, and with the last of them the range is
resolved. -/
theorem onResponse_of_initial {headers : List SealedHeader} {bodies : List BlockBody}
    {response : Except PeerRequestError (List BlockBody)}
    (hright : List.Forall₂ (fun header body => future.Valid body header) headers bodies)
    (hheaders : state.headers = headers) (hbodies : state.bodies <+: bodies)
    (hreceived : received response <+: bodies.drop state.bodies.length)
    (hunfinished : state.missing ≠ []) :
    (∃ state', future.onResponse state response = .pending state' ∧ state'.headers = headers ∧
      state'.bodies = state.bodies ++ received response ∧ state'.bodies <+: bodies ∧
      state'.missing ≠ [] ∧ state'.fut.hashes = state'.missing) ∨
    future.onResponse state response
      = .ready (List.zipWith Block.fromSealedParts headers bodies) := by
  have hkept : future.kept (state.headers.drop state.bodies.length) (received response)
      = received response := by
    rw [hheaders]
    exact kept_of_initial (List.forall₂_drop _ hright) hreceived
  have hfront : state.bodies ++ received response <+: bodies := by
    obtain ⟨later, rfl⟩ := hbodies
    rw [List.drop_left] at hreceived
    exact (List.prefix_append_right_inj _).mpr hreceived
  have hspec := onResponse_spec future state response
  rw [hkept] at hspec
  cases hround : future.onResponse state response with
  | pending state' =>
      rw [hround] at hspec
      obtain ⟨hheaders', hbodies', hasked'⟩ := hspec
      exact .inl ⟨state', rfl, hheaders'.trans hheaders, hbodies', hbodies' ▸ hfront,
        missing_of_pending hround hunfinished, hasked'⟩
  | ready blocks =>
      rw [hround] at hspec
      obtain ⟨bodies', rfl, hall, rfl⟩ := hspec
      rw [hheaders, hright.length_eq] at hall
      rw [hheaders, hfront.eq_of_length (Nat.le_antisymm hfront.length_le hall)]
      exact .inr rfl

end FetchFullBlockRangeFuture

namespace FullBlockRangeDownload

open FetchFullBlockRangeFuture FullBlockRangeBodiesDownloadState

variable (chain body start limit) in
/-- **How far the download is**, and how many rounds that lead on it takes: the headers are asked
for, or they are there with the bodies of the first of them; what is asked for is what is
missing. -/
inductive Progress : ℕ → FullBlockRangeDownload → Prop
  | headers {download : FullBlockRangeDownload} {fut : FetchHeadersRangeFuture}
      (inState : download.state = .headers fut)
      (request : fut.request = ⟨D.hashSlow start, limit⟩) :
      Progress ((honestResponse chain start limit).length + 1) download
  | bodies {download : FullBlockRangeDownload} {state : FullBlockRangeBodiesDownloadState}
      (inState : download.state = .bodies state)
      (headers : state.headers = (honestResponse chain start limit).map D.sealSlow)
      (bodies : state.bodies <+: (honestResponse chain start limit).map body)
      (unfinished : state.missing ≠ [])
      (asked : state.fut.hashes = state.missing)
      (long : limit ≤ (D.fields start).number + 1) :
      Progress ((honestResponse chain start limit).length - state.bodies.length) download

/-- The adapter of the round answers, and leads on. -/
def LeadsOn (chain : List D.WireHeader) (body : D.WireHeader → BlockBody) (start : D.WireHeader)
    (limit : ℕ) (adapter : Except PeerRequestError (RpcBlockAdapter D)) : Prop :=
  ∃ answering, adapter = .ok answering ∧ answering.Complete chain body start limit

/-- So many of the rounds lead on. -/
def Leading (chain : List D.WireHeader) (body : D.WireHeader → BlockBody) (start : D.WireHeader)
    (limit : ℕ) (adapters : List (Except PeerRequestError (RpcBlockAdapter D))) (n : ℕ) : Prop :=
  ∃ leading : List (Except PeerRequestError (RpcBlockAdapter D)), leading.Sublist adapters ∧
    leading.length = n ∧ ∀ adapter ∈ leading, LeadsOn chain body start limit adapter

section Rounds

variable {download : FullBlockRangeDownload} {remaining : ℕ}
  {adapter : Except PeerRequestError (RpcBlockAdapter D)}
  (hglimpses : ∀ answering, adapter = .ok answering → answering.Glimpses chain body)

include hglimpses

/-- **A round for the bodies**: the ones that come are kept, all of them. -/
theorem bodiesRound
    (hvalid : ∀ header ∈ chain,
      D.validateBodyAgainstHeader (body header) (D.sealSlow header) = .ok ())
    {state : FullBlockRangeBodiesDownloadState} (hstate : download.state = .bodies state)
    (hheaders : state.headers = (honestResponse chain start limit).map D.sealSlow)
    (hbodies : state.bodies <+: (honestResponse chain start limit).map body)
    (hunfinished : state.missing ≠ []) (hasked : state.fut.hashes = state.missing)
    (hlong : limit ≤ (D.fields start).number + 1) :
    (∃ remaining' download', download.round D (.served adapter) = .pending download' ∧
      Progress chain start limit body remaining' download' ∧
      remaining' ≤ (honestResponse chain start limit).length - state.bodies.length ∧
      (LeadsOn chain body start limit adapter →
        remaining' < (honestResponse chain start limit).length - state.bodies.length)) ∨
    download.round D (.served adapter) = .ready (rangeBlocks chain body start limit) := by
  have hmem : ∀ header ∈ honestResponse chain start limit, header ∈ chain := fun header hheader =>
    (reverse_honestResponse_isInfix chain start limit).subset (List.mem_reverse.mpr hheader)
  have hright : List.Forall₂
      (fun header body => (download.bodiesFuture D).Valid body header)
      ((honestResponse chain start limit).map D.sealSlow)
      ((honestResponse chain start limit).map body) := by
    rw [List.forall₂_map_left_iff, List.forall₂_map_right_iff, List.forall₂_same]
    exact fun header hheader => hvalid header (hmem header hheader)
  -- what is asked for are the bodies of the headers past the cursor
  have hmissing : state.fut.hashes
      = ((honestResponse chain start limit).drop state.bodies.length).map D.hashSlow := by
    rw [hasked]
    unfold missing
    rw [hheaders, ← List.map_drop, List.map_map]
    rfl
  have hreceived : received ((RangeAnswers.served adapter).bodies state.fut.hashes)
      <+: ((honestResponse chain start limit).map body).drop state.bodies.length := by
    rw [hmissing, ← List.map_drop]
    cases adapter with
    | error error => exact List.nil_prefix
    | ok answering =>
        exact RpcBlockAdapter.onBlockBodiesRequest_initial (hglimpses answering rfl)
          fun header hheader => hmem header (List.mem_of_mem_drop hheader)
  have hround : download.round D (.served adapter) = match (download.bodiesFuture D).onResponse
      state ((RangeAnswers.served adapter).bodies state.fut.hashes) with
    | .pending state => .pending { download with state := .bodies state }
    | .ready blocks => .ready blocks := by
    unfold round
    rw [hstate]
  rcases onResponse_of_initial hright hheaders hbodies hreceived hunfinished with
    ⟨state', hresponse, hheaders', hbodies', hfront, hunfinished', hasked'⟩ | hready
  · rw [hresponse] at hround
    have hmore : state.bodies.length ≤ state'.bodies.length := by
      rw [hbodies', List.length_append]
      exact Nat.le_add_right _ _
    refine .inl ⟨_, _, hround, .bodies rfl hheaders' hfront hunfinished' hasked' hlong,
      Nat.sub_le_sub_left hmore _, ?_⟩
    rintro ⟨answering, rfl, hcomplete⟩
    -- something comes, as the first body that is asked for is there
    have hsome : received ((RangeAnswers.served (.ok answering)).bodies state.fut.hashes) ≠ [] := by
      cases hlater : (honestResponse chain start limit).drop state.bodies.length with
      | nil =>
          rw [hlater, hasked] at hmissing
          exact absurd hmissing hunfinished
      | cons header later =>
          have hheader : header ∈ chain :=
            hmem header (List.mem_of_mem_drop (hlater ▸ List.mem_cons_self))
          rw [hlater, List.map_cons] at hmissing
          rw [hmissing]
          refine RpcBlockAdapter.onBlockBodiesRequest_ne_nil ?_
          rw [hcomplete.bodies header hheader]
          exact Option.some_ne_none _
    have hleft : state'.bodies.length < (honestResponse chain start limit).length := by
      rw [ne_eq, missing_eq_nil, hheaders', List.length_map] at hunfinished'
      exact Nat.lt_of_not_le hunfinished'
    have hpos := List.length_pos_iff.mpr hsome
    rw [hbodies', List.length_append] at hleft ⊢
    omega
  · rw [hready] at hround
    refine .inr (hround.trans ?_)
    unfold rangeBlocks
    rw [List.zipWith_map_left, List.zipWith_map_right, List.zipWith_self]

variable (h : ChainFromGenesis D chain) (hparent : D.ChecksParent) (hrange : D.ChecksRange)
  (hstart : start ∈ chain) (hlimit : 1 ≤ limit)

include h hparent hrange hstart hlimit

/-- **A round for the headers**: they are accepted if all of them come. -/
theorem headersRound {fut : FetchHeadersRangeFuture} (hstate : download.state = .headers fut)
    (hrequest : fut.request = ⟨D.hashSlow start, limit⟩) :
    ∃ remaining' download', download.round D (.served adapter) = .pending download' ∧
      Progress chain start limit body remaining' download' ∧
      remaining' ≤ (honestResponse chain start limit).length + 1 ∧
      (LeadsOn chain body start limit adapter → limit ≤ (D.fields start).number + 1 →
        remaining' ≤ (honestResponse chain start limit).length) := by
  have hlength : (honestResponse chain start limit).length
      = min limit ((D.fields start).number + 1) := length_honestResponse h hparent hstart
  cases hresponse :
      fut.onResponse D ((RangeAnswers.served adapter).headers fut.request) with
  | none =>
      have hround : download.round D (.served adapter)
          = .pending { download with state := .headers fut.requestHeaders } := by
        unfold round
        rw [hstate]
        simp only [hresponse]
      refine ⟨_, _, hround, .headers rfl hrequest, le_rfl, ?_⟩
      rintro ⟨answering, rfl, hcomplete⟩ hlong
      -- a complete response is accepted
      have haccepted := onResponse_honestResponse hrange h hparent hstart hlimit hlong hrequest
      have hresponse' : fut.onResponse D (.ok (answering.onHeadersRequest fut.request)) = none :=
        hresponse
      rw [hrequest, RpcNetworkAdapter.onHeadersRequest_eq_honestResponse hcomplete.serves h hparent
        hstart hlimit hcomplete.maxHeaders hcomplete.fits, haccepted] at hresponse'
      cases hresponse'
  | some headers =>
      have hround : download.round D (.served adapter) = .pending { download with
          state := .bodies (FetchFullBlockRangeFuture.start headers) } := by
        unfold round
        rw [hstate]
        simp only [hresponse]
      obtain ⟨response, hserved, rfl, hlong, -, -⟩ :=
        FetchHeadersRangeFuture.onResponse_eq_some.mp hresponse
      cases adapter with
      | error error => cases hserved
      | ok answering =>
          obtain rfl : answering.onHeadersRequest fut.request = response := Except.ok.inj hserved
          have hinitial := RpcBlockAdapter.onHeadersRequest_initial (hglimpses _ rfl) h hparent
            hstart hlimit
          rw [hrequest] at hlong hround
          have hsame : answering.onHeadersRequest ⟨D.hashSlow start, limit⟩
              = honestResponse chain start limit := by
            refine hinitial.eq_of_length (Nat.le_antisymm hinitial.length_le ?_)
            rw [hlength]
            exact (Nat.min_le_left _ _).trans hlong
          rw [hsame] at hlong hround
          rw [hlength] at hlong
          refine ⟨_, _, hround, .bodies rfl rfl List.nil_prefix ?_ ?_
            (hlong.trans (Nat.min_le_right _ _)), by omega, fun _ _ => Nat.sub_le _ _⟩
          · rw [ne_eq, missing_eq_nil]
            show ¬((honestResponse chain start limit).map D.sealSlow).length ≤ 0
            rw [List.length_map, hlength]
            omega
          · rfl

/-- **A round of the download**: it goes on, with less to do if the adapter leads on, or it is
resolved with the blocks of the range. -/
theorem Progress.round
    (hvalid : ∀ header ∈ chain,
      D.validateBodyAgainstHeader (body header) (D.sealSlow header) = .ok ())
    (hprogress : Progress chain start limit body remaining download) :
    (∃ remaining' download', download.round D (.served adapter) = .pending download' ∧
      Progress chain start limit body remaining' download' ∧ remaining' ≤ remaining ∧
      (LeadsOn chain body start limit adapter → limit ≤ (D.fields start).number + 1 →
        remaining' < remaining)) ∨
    limit ≤ (D.fields start).number + 1 ∧
      download.round D (.served adapter) = .ready (rangeBlocks chain body start limit) := by
  cases hprogress with
  | headers hstate hrequest =>
      obtain ⟨remaining', download', hround, hprogress', hle, hlt⟩ :=
        headersRound hglimpses h hparent hrange hstart hlimit hstate hrequest
      exact .inl ⟨remaining', download', hround, hprogress', hle, fun hleads hlong =>
        Nat.lt_succ_of_le (hlt hleads hlong)⟩
  | bodies hstate hheaders hbodies hunfinished hasked hlong =>
      rcases bodiesRound hglimpses hvalid hstate hheaders hbodies hunfinished hasked hlong with
        ⟨remaining', download', hround, hprogress', hle, hlt⟩ | hready
      · exact .inl ⟨remaining', download', hround, hprogress', hle, fun hleads _ => hlt hleads⟩
      · exact .inr ⟨hlong, hready⟩

end Rounds

/-- **Run lemma**: every adapter that leads on leaves less to do. -/
theorem Progress.poll (h : ChainFromGenesis D chain) (hparent : D.ChecksParent)
    (hrange : D.ChecksRange) (hstart : start ∈ chain) (hlimit : 1 ≤ limit)
    (hvalid : ∀ header ∈ chain,
      D.validateBodyAgainstHeader (body header) (D.sealSlow header) = .ok ())
    {adapters : List (Except PeerRequestError (RpcBlockAdapter D))}
    (hglimpses : ∀ answering, .ok answering ∈ adapters → answering.Glimpses chain body)
    {remaining : ℕ} {download : FullBlockRangeDownload}
    (hprogress : Progress chain start limit body remaining download) :
    (∃ remaining' download', download.poll D (adapters.map .served) = .pending download' ∧
      Progress chain start limit body remaining' download' ∧
      (limit ≤ (D.fields start).number + 1 → ∀ n, Leading chain body start limit adapters n →
        remaining' + n ≤ remaining)) ∨
    limit ≤ (D.fields start).number + 1 ∧
      download.poll D (adapters.map .served) = .ready (rangeBlocks chain body start limit) := by
  induction adapters generalizing remaining download with
  | nil =>
      refine .inl ⟨remaining, download, rfl, hprogress, fun _ n hleading => ?_⟩
      obtain ⟨leading, hsublist, rfl, -⟩ := hleading
      rw [List.sublist_nil.mp hsublist]
      exact le_rfl
  | cons adapter adapters ih =>
      rw [List.map_cons, FullBlockRangeDownload.poll]
      rcases hprogress.round (fun answering hadapter => hglimpses answering
        (hadapter ▸ List.mem_cons_self)) h hparent hrange hstart hlimit hvalid with
        ⟨remaining', download', hround, hprogress', hle, hlt⟩ | ⟨hlong, hready⟩
      · simp only [hround]
        refine (ih (fun answering hmem => hglimpses answering (List.mem_cons_of_mem _ hmem))
          hprogress').imp_left ?_
        rintro ⟨remaining'', download'', hpoll, hprogress'', hleads⟩
        refine ⟨remaining'', download'', hpoll, hprogress'', fun hlong n hleading => ?_⟩
        obtain ⟨leading, hsublist, rfl, hall⟩ := hleading
        -- the first adapter is one of those that lead on, or it is not
        cases hsublist with
        | cons _ hsublist => exact (hleads hlong _ ⟨leading, hsublist, rfl, hall⟩).trans hle
        | @cons_cons leading _ _ hsublist =>
            rw [List.forall_mem_cons] at hall
            have hless := hleads hlong _ ⟨leading, hsublist, rfl, hall.2⟩
            have hone := hlt hall.1 hlong
            rw [List.length_cons]
            omega
      · simp only [hready]
        exact .inr ⟨hlong, trivial⟩

/-- There is something left to do while the download goes on. -/
theorem Progress.pos {remaining : ℕ} {download : FullBlockRangeDownload}
    (hprogress : Progress chain start limit body remaining download) : 0 < remaining := by
  cases hprogress with
  | headers => exact Nat.succ_pos _
  | bodies hstate hheaders hbodies hunfinished =>
      rw [ne_eq, missing_eq_nil, hheaders, List.length_map] at hunfinished
      omega

end FullBlockRangeDownload

open FullBlockRangeDownload

/-- **The range is downloaded**: the future is settled with the blocks of the chain or goes on
with some of them, it is settled once enough rounds led on, and never if the chain below the
start is too short for the limit. -/
structure DownloadsRange (D : DownloadExternals) (chain : List D.WireHeader)
    (body : D.WireHeader → BlockBody) (start : D.WireHeader) (limit retryDelay : ℕ)
    (adapters : List (Except PeerRequestError (RpcBlockAdapter D))) : Prop where
  settled : ∀ blocks, (new retryDelay ⟨D.hashSlow start, limit⟩).poll D (adapters.map .served)
    = .ready blocks → blocks = rangeBlocks chain body start limit
  partly : ∀ download, (new retryDelay ⟨D.hashSlow start, limit⟩).poll D (adapters.map .served)
    = .pending download → ∃ remaining, Progress chain start limit body remaining download ∧
      ∀ n, limit ≤ (D.fields start).number + 1 → Leading chain body start limit adapters n →
        remaining + n ≤ limit + 1
  resolves : ∀ n, limit ≤ (D.fields start).number + 1 →
    Leading chain body start limit adapters n → limit < n →
      (new retryDelay ⟨D.hashSlow start, limit⟩).poll D (adapters.map .served)
        = .ready (rangeBlocks chain body start limit)
  stuck : (D.fields start).number + 1 < limit → ∃ download fut,
    (new retryDelay ⟨D.hashSlow start, limit⟩).poll D (adapters.map .served) = .pending download ∧
      download.state = .headers fut ∧ fut.request = ⟨D.hashSlow start, limit⟩

/-- **A range of blocks is downloaded**, from a provider that has glimpses of the chain, whatever
fails on the way. -/
theorem downloadsRange_of_rounds (h : ChainFromGenesis D chain) (hparent : D.ChecksParent)
    (hrange : D.ChecksRange) (hstart : start ∈ chain) (hlimit : 1 ≤ limit)
    (hvalid : ∀ header ∈ chain,
      D.validateBodyAgainstHeader (body header) (D.sealSlow header) = .ok ())
    {adapters : List (Except PeerRequestError (RpcBlockAdapter D))}
    (hglimpses : ∀ answering, .ok answering ∈ adapters → answering.Glimpses chain body)
    (retryDelay : ℕ) : DownloadsRange D chain body start limit retryDelay adapters := by
  have hlength : (honestResponse chain start limit).length
      = min limit ((D.fields start).number + 1) := length_honestResponse h hparent hstart
  have hinitial : Progress chain start limit body ((honestResponse chain start limit).length + 1)
      (new retryDelay ⟨D.hashSlow start, limit⟩) := .headers rfl rfl
  have hrun := hinitial.poll h hparent hrange hstart hlimit hvalid hglimpses
  refine ⟨fun blocks hready => ?_, fun download hpending => ?_, fun n hlong hleading hmany => ?_,
    fun hshort => ?_⟩
  · rcases hrun with ⟨remaining, download, hpoll, -, -⟩ | ⟨-, hpoll⟩
    · cases hpoll.symm.trans hready
    · cases hpoll.symm.trans hready
      rfl
  · rcases hrun with ⟨remaining, download', hpoll, hprogress, hleads⟩ | ⟨-, hpoll⟩
    · cases hpoll.symm.trans hpending
      refine ⟨remaining, hprogress, fun n hlong hleading => ?_⟩
      exact (hleads hlong n hleading).trans
        (Nat.succ_le_succ (hlength ▸ Nat.min_le_left _ _))
    · cases hpoll.symm.trans hpending
  · rcases hrun with ⟨remaining, download, -, hprogress, hleads⟩ | ⟨-, hpoll⟩
    · have hpos := hprogress.pos
      have hless := hleads hlong n hleading
      omega
    · exact hpoll
  · rcases hrun with ⟨remaining, download, hpoll, hprogress, -⟩ | ⟨hlong, -⟩
    · cases hprogress with
      | headers hstate hrequest => exact ⟨download, _, hpoll, hstate, hrequest⟩
      | bodies _ _ _ _ _ hlong => omega
    · omega

/-! ### Two blocks, one at a time -/

namespace SmallWorld

/-- A peer with the given headers and their bodies, which sends one body at a time. -/
def holding (headers : List SealedHeader) : RpcBlockAdapter downloads where
  blockByHash hash := headers.find? fun header => header.hash = hash
  blockByNumber number := headers.find? fun header => header.number = number
  length _ := 1
  maxHeadersServe := 1024
  softResponseLimit := 2
  bodyByHash hash := (headers.find? fun header => header.hash = hash).map fun _ => []
  bodyLength _ := 1
  maxBodiesServe := 1

/-- Nobody answers, then a peer that misses the genesis block, then one that has both. -/
def unreliableRounds : List (Except PeerRequestError (RpcBlockAdapter downloads)) :=
  [.error .requestDropped, .ok (holding [header 2 1 1]), .ok (holding shortChain),
    .error .connectionClosed, .ok (holding shortChain), .ok (holding []), .ok (holding shortChain)]

theorem mem_shortChain {found : SealedHeader} (hmem : found ∈ shortChain) :
    found = header 1 0 0 ∨ found = header 2 1 1 := by
  rcases List.mem_cons.mp hmem with rfl | hmem
  · exact .inl rfl
  · exact .inr (List.mem_singleton.mp hmem)

/-- Whatever it holds of the chain, it never sends anything else. -/
theorem holding_glimpses {headers : List SealedHeader} (hsubset : headers ⊆ shortChain) :
    (holding headers).Glimpses shortChain fun _ => [] := by
  constructor
  · intro header hheader found hfound
    have hhash : found.hash = downloads.hashSlow header := by
      simpa using List.find?_some hfound
    rcases mem_shortChain (hsubset (List.mem_of_find?_eq_some hfound)) with rfl | rfl <;>
      rcases mem_shortChain hheader with rfl | rfl <;> first | rfl | cases hhash
  · intro number _ found hfound
    obtain rfl : found.number = number := by simpa using List.find?_some hfound
    rcases mem_shortChain (hsubset (List.mem_of_find?_eq_some hfound)) with rfl | rfl <;> rfl
  · intro header _ found hfound
    obtain ⟨-, -, rfl⟩ := Option.map_eq_some_iff.mp hfound
    rfl

theorem shortChain_complete :
    (holding shortChain).Complete shortChain (fun _ => []) (header 2 1 1) 2 where
  serves := by
    refine ⟨fun header hmem => ?_, fun number hlt => ?_⟩
    · rcases mem_shortChain hmem with rfl | rfl <;> rfl
    · rcases number with _ | _ | number
      · rfl
      · rfl
      · exact absurd hlt (Nat.not_lt_of_le (Nat.le_add_left 2 number))
  bodies header hmem := by
    rcases mem_shortChain hmem with rfl | rfl <;> rfl
  maxHeaders := by decide
  fits := by decide

/-- Three of the rounds lead on. -/
theorem unreliableRounds_leading :
    Leading shortChain (fun _ => []) (header 2 1 1) 2 unreliableRounds 3 := by
  refine ⟨List.replicate 3 (.ok (holding shortChain)), ?_, rfl, ?_⟩
  · exact .cons _ (.cons _ (.cons_cons _ (.cons _ (.cons_cons _ (.cons _ (.refl _))))))
  · intro adapter hadapter
    rw [List.eq_of_mem_replicate hadapter]
    exact ⟨_, rfl, shortChain_complete⟩

theorem unreliableRounds_glimpses {answering : RpcBlockAdapter downloads}
    (hmem : .ok answering ∈ unreliableRounds) :
    answering.Glimpses shortChain fun _ => [] := by
  have hsingle : [header 2 1 1] ⊆ shortChain := List.subset_cons_self _ _
  simp only [unreliableRounds, List.mem_cons, Except.ok.injEq, reduceCtorEq, List.not_mem_nil,
    false_or, or_false] at hmem
  rcases hmem with rfl | rfl | rfl | rfl | rfl
  · exact holding_glimpses hsingle
  · exact holding_glimpses (List.Subset.refl _)
  · exact holding_glimpses (List.Subset.refl _)
  · exact holding_glimpses (List.nil_subset _)
  · exact holding_glimpses (List.Subset.refl _)

/-- Both blocks are there after the rounds. -/
theorem downloadsRange_of_unreliableRounds :
    (new 5 ⟨2, 2⟩).poll downloads (unreliableRounds.map .served)
      = .ready [block 2 1 1, block 1 0 0] :=
  (downloadsRange_of_rounds shortChain_fromGenesis downloads_checksParent downloads_checksRange
    (List.mem_cons_of_mem _ List.mem_cons_self) (show 1 ≤ 2 by decide) (fun _ _ => rfl)
    (fun _ => unreliableRounds_glimpses) 5).resolves 3 (Nat.le_refl 2) unreliableRounds_leading
    (by decide)

end SmallWorld

end ZkRess
