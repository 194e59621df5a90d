import ZkRess.Primitives

/-!
# Downloading a range of full blocks

`FetchFullBlockRangeFuture` of `download/futs.rs`, from the moment its headers are
downloaded and validated.  A poll of the pending request ends in a response of the
network, so the responses are the input of the model, one a round.

The bodies are matched to the headers by position alone: the number of bodies is
the cursor.  The loop over a response compares the response's next body with the
next header and adds the body under the cursor; after a body that is not valid it
goes on with both, without adding.  `onResponse_spec` says what a round does to
the state, and `kept_aligned_iff` when the bodies it adds are under their headers.
-/

namespace ZkRess

/-- `PeerRequestError`. -/
inductive PeerRequestError
  | requestDropped
  | connectionClosed

/-- The body of a block, as the bytes it is encoded to. -/
abbrev BlockBody := List UInt8

/-- `SealedBlock::from_sealed_parts`. -/
def Block.fromSealedParts (header : SealedHeader) (body : BlockBody) : Block := ⟨header, body⟩

/-- A request for the bodies of the blocks with the given hashes, sent after a
delay. -/
structure BodiesRequest where
  hashes : List B256
  delay : ℕ

/-- The headers of the range, the request in flight, and the bodies so far. -/
structure FullBlockRangeBodiesDownloadState where
  headers : List SealedHeader
  fut : BodiesRequest
  bodies : List BlockBody

namespace FullBlockRangeBodiesDownloadState

/-- The hashes of the headers past the cursor. -/
def missing (state : FullBlockRangeBodiesDownloadState) : List B256 :=
  (state.headers.drop state.bodies.length).map fun header => header.hash

/-- The headers and bodies, put together by position. -/
def takeBlocks (state : FullBlockRangeBodiesDownloadState) : List Block :=
  List.zipWith Block.fromSealedParts state.headers state.bodies

/-- Request what is missing, after the delay. -/
def requestBodies (state : FullBlockRangeBodiesDownloadState) (delay : ℕ) :
    FullBlockRangeBodiesDownloadState :=
  { state with fut := ⟨state.missing, delay⟩ }

@[simp] theorem requestBodies_headers (state : FullBlockRangeBodiesDownloadState) (delay : ℕ) :
    (state.requestBodies delay).headers = state.headers := rfl

@[simp] theorem requestBodies_bodies (state : FullBlockRangeBodiesDownloadState) (delay : ℕ) :
    (state.requestBodies delay).bodies = state.bodies := rfl

theorem missing_eq_nil {state : FullBlockRangeBodiesDownloadState} :
    state.missing = [] ↔ state.headers.length ≤ state.bodies.length := by
  unfold missing
  rw [List.map_eq_nil_iff, List.drop_eq_nil_iff]

end FullBlockRangeBodiesDownloadState

/-- Where an element of a filtered list stood: as many places on as elements before
it were dropped. -/
theorem getElem?_filter_eq_some {α : Type} (p : α → Bool) (l : List α) (j : ℕ) (a : α) :
    (l.filter p)[j]? = some a ↔ ∃ i, l[i]? = some a ∧ p a ∧ (l.take i).countP p = j := by
  induction l generalizing j with
  | nil => simp
  | cons b l ih =>
      by_cases hb : p b
      · rw [List.filter_cons_of_pos hb]
        constructor
        · intro hget
          match j with
          | 0 =>
              obtain rfl : b = a := by simpa using hget
              exact ⟨0, rfl, hb, rfl⟩
          | j + 1 =>
              obtain ⟨i, hi, ha, hcount⟩ := (ih j).mp (by simpa using hget)
              refine ⟨i + 1, hi, ha, ?_⟩
              rw [List.take_succ_cons, List.countP_cons_of_pos hb, hcount]
        · rintro ⟨i, hi, ha, rfl⟩
          match i with
          | 0 => exact hi
          | i + 1 =>
              rw [List.take_succ_cons, List.countP_cons_of_pos hb]
              exact (ih _).mpr ⟨i, hi, ha, rfl⟩
      · rw [List.filter_cons_of_neg hb, ih]
        constructor
        · rintro ⟨i, hi, ha, hcount⟩
          refine ⟨i + 1, hi, ha, ?_⟩
          rw [List.take_succ_cons, List.countP_cons_of_neg hb, hcount]
        · rintro ⟨i, hi, ha, hcount⟩
          match i with
          | 0 =>
              obtain rfl : b = a := Option.some.inj hi
              exact absurd ha hb
          | i + 1 =>
              rw [List.take_succ_cons, List.countP_cons_of_neg hb] at hcount
              exact ⟨i, hi, ha, hcount⟩

open FullBlockRangeBodiesDownloadState

/-- What a poll ends with. -/
inductive RangePoll
  | pending (state : FullBlockRangeBodiesDownloadState)
  | ready (blocks : List Block)

/-- A future that downloads full block range: the consensus check it makes and its
retry delay. -/
structure FetchFullBlockRangeFuture where
  /-- `EthBeaconConsensus::validate_body_against_header`. -/
  validateBodyAgainstHeader : BlockBody → SealedHeader → Except ConsensusError Unit
  retryDelay : ℕ

namespace FetchFullBlockRangeFuture

variable (future : FetchFullBlockRangeFuture)

/-- The state once the headers are there. -/
def start (headers : List SealedHeader) : FullBlockRangeBodiesDownloadState :=
  ⟨headers, ⟨headers.map fun header => header.hash, 0⟩, []⟩

/-- The loop over a response: the headers from the cursor on with the bodies of the
response. -/
def acceptBodies : List SealedHeader → List BlockBody → FullBlockRangeBodiesDownloadState →
    FullBlockRangeBodiesDownloadState
  | header :: headers, body :: pending, state =>
      match future.validateBodyAgainstHeader body header with
      -- `continue` is that of this loop: the next body meets the next header
      | .error _ => acceptBodies headers pending (state.requestBodies future.retryDelay)
      | .ok () => acceptBodies headers pending { state with bodies := state.bodies ++ [body] }
  | _, _, state => state

/-- A round: the response of the request in flight. -/
def onResponse (state : FullBlockRangeBodiesDownloadState) :
    Except PeerRequestError (List BlockBody) → RangePoll
  | .error _ => .pending (state.requestBodies future.retryDelay)
  | .ok [] => .pending (state.requestBodies future.retryDelay)
  | .ok pending =>
      let state' := future.acceptBodies (state.headers.drop state.bodies.length) pending state
      if state'.missing = [] then .ready state'.takeBlocks
      else .pending (state'.requestBodies 0)

/-- Poll through the responses; a resolved future is not polled again. -/
def poll (state : FullBlockRangeBodiesDownloadState) :
    List (Except PeerRequestError (List BlockBody)) → RangePoll
  | [] => .pending state
  | response :: responses =>
      match future.onResponse state response with
      | .pending state' => poll state' responses
      | .ready blocks => .ready blocks

/-! ## What a round does -/

/-- The body passes the check against the header. -/
def Valid (body : BlockBody) (header : SealedHeader) : Prop :=
  future.validateBodyAgainstHeader body header = .ok ()

instance (body : BlockBody) (header : SealedHeader) : Decidable (future.Valid body header) :=
  match h : future.validateBodyAgainstHeader body header with
  | .ok () => .isTrue h
  | .error _ => .isFalse fun hvalid => nomatch h.symm.trans hvalid

/-- The bodies that pass the check against the header at their own place. -/
def kept (headers : List SealedHeader) (pending : List BlockBody) : List BlockBody :=
  ((headers.zip pending).filter fun pair => future.Valid pair.2 pair.1).map Prod.snd

/-- The bodies of a response. -/
def received : Except PeerRequestError (List BlockBody) → List BlockBody
  | .error _ => []
  | .ok pending => pending

variable {future} {state : FullBlockRangeBodiesDownloadState}

theorem kept_cons_of_valid {headers : List SealedHeader} {pending : List BlockBody}
    {header : SealedHeader} {body : BlockBody} (hvalid : future.Valid body header) :
    future.kept (header :: headers) (body :: pending) = body :: future.kept headers pending := by
  unfold kept
  rw [List.zip_cons_cons, List.filter_cons_of_pos (by simpa using hvalid), List.map_cons]

theorem kept_cons_of_not_valid {headers : List SealedHeader} {pending : List BlockBody}
    {header : SealedHeader} {body : BlockBody} (hvalid : ¬future.Valid body header) :
    future.kept (header :: headers) (body :: pending) = future.kept headers pending := by
  unfold kept
  rw [List.zip_cons_cons, List.filter_cons_of_neg (by simpa using hvalid)]

variable (future) in
/-- The loop adds the kept bodies. -/
theorem acceptBodies_spec (state : FullBlockRangeBodiesDownloadState) (headers : List SealedHeader)
    (pending : List BlockBody) :
    (future.acceptBodies headers pending state).headers = state.headers ∧
      (future.acceptBodies headers pending state).bodies
        = state.bodies ++ future.kept headers pending := by
  induction headers generalizing pending state with
  | nil => exact ⟨rfl, (List.append_nil _).symm⟩
  | cons header headers ih =>
      match pending with
      | [] =>
          refine ⟨rfl, ?_⟩
          show state.bodies = state.bodies ++ _
          unfold kept
          rw [List.zip_nil_right, List.filter_nil, List.map_nil, List.append_nil]
      | body :: pending =>
          unfold acceptBodies
          split
          · next hcheck =>
            rw [kept_cons_of_not_valid fun hvalid => nomatch hcheck.symm.trans hvalid]
            exact ih _ pending
          · next hcheck =>
            rw [kept_cons_of_valid hcheck]
            obtain ⟨hheaders, hbodies⟩ :=
              ih { state with bodies := state.bodies ++ [body] } pending
            exact ⟨hheaders, by rw [hbodies, List.append_assoc, List.singleton_append]⟩

variable (future) in
/-- **A round**: the kept bodies are added, and either nothing is missing and the
blocks are handed out, or exactly what is missing is requested. -/
theorem onResponse_spec (state : FullBlockRangeBodiesDownloadState)
    (response : Except PeerRequestError (List BlockBody)) :
    match future.onResponse state response with
    | .pending state' => state'.headers = state.headers ∧
        state'.bodies = state.bodies
          ++ future.kept (state.headers.drop state.bodies.length) (received response) ∧
        state'.fut.hashes = state'.missing
    | .ready blocks => ∃ bodies, bodies = state.bodies
          ++ future.kept (state.headers.drop state.bodies.length) (received response) ∧
        state.headers.length ≤ bodies.length ∧
        blocks = List.zipWith Block.fromSealedParts state.headers bodies := by
  have hnone : ∀ headers, future.kept headers [] = [] := by
    intro headers
    unfold kept
    rw [List.zip_nil_right, List.filter_nil, List.map_nil]
  match response with
  | .error _ => exact ⟨rfl, by rw [received, hnone, List.append_nil]; rfl, rfl⟩
  | .ok [] => exact ⟨rfl, by rw [received, hnone, List.append_nil]; rfl, rfl⟩
  | .ok (body :: pending) =>
      obtain ⟨hheaders, hbodies⟩ := acceptBodies_spec future state
        (state.headers.drop state.bodies.length) (body :: pending)
      simp only [onResponse]
      by_cases hmissing : (future.acceptBodies (state.headers.drop state.bodies.length)
          (body :: pending) state).missing = []
      · rw [if_pos hmissing]
        rw [missing_eq_nil, hheaders, hbodies] at hmissing
        exact ⟨_, rfl, hmissing, by rw [takeBlocks, hheaders, hbodies]; rfl⟩
      · rw [if_neg hmissing]
        exact ⟨hheaders, hbodies, rfl⟩

theorem poll_append (answered later : List (Except PeerRequestError (List BlockBody))) :
    future.poll state (answered ++ later)
      = match future.poll state answered with
        | .pending state' => future.poll state' later
        | .ready blocks => .ready blocks := by
  induction answered generalizing state with
  | nil => rfl
  | cons response answered ih =>
      rw [List.cons_append, poll, poll]
      cases future.onResponse state response with
      | pending state' => exact ih
      | ready blocks => rfl

/-- The round after which the future is still pending added what it kept, and
requested what was missing then. -/
theorem exists_pending_round {answered : List (Except PeerRequestError (List BlockBody))}
    {response : Except PeerRequestError (List BlockBody)}
    {state' : FullBlockRangeBodiesDownloadState}
    (hpending : future.poll state (answered ++ [response]) = .pending state') :
    ∃ before, future.poll state answered = .pending before ∧ state'.headers = before.headers ∧
      state'.bodies = before.bodies
        ++ future.kept (before.headers.drop before.bodies.length) (received response) ∧
      state'.fut.hashes = state'.missing := by
  rw [poll_append] at hpending
  cases hbefore : future.poll state answered with
  | ready blocks => rw [hbefore] at hpending; cases hpending
  | pending before =>
      have hround := onResponse_spec future before response
      simp only [hbefore, poll] at hpending
      cases hpoll : future.onResponse before response with
      | ready blocks => rw [hpoll] at hpending; cases hpending
      | pending after =>
          rw [hpoll] at hpending hround
          obtain rfl := RangePoll.pending.inj hpending
          exact ⟨before, rfl, hround⟩

/-- The future was ready before the last response, or that response completed the
bodies. -/
theorem ready_or_exists_round {answered : List (Except PeerRequestError (List BlockBody))}
    {response : Except PeerRequestError (List BlockBody)} {blocks : List Block}
    (hready : future.poll state (answered ++ [response]) = .ready blocks) :
    future.poll state answered = .ready blocks ∨
      ∃ before bodies, future.poll state answered = .pending before ∧ bodies = before.bodies
          ++ future.kept (before.headers.drop before.bodies.length) (received response) ∧
        before.headers.length ≤ bodies.length ∧
        blocks = List.zipWith Block.fromSealedParts before.headers bodies := by
  rw [poll_append] at hready
  cases hbefore : future.poll state answered with
  | ready earlier => rw [hbefore] at hready; exact .inl hready
  | pending before =>
      have hround := onResponse_spec future before response
      simp only [hbefore, poll] at hready
      cases hpoll : future.onResponse before response with
      | pending after => rw [hpoll] at hready; cases hready
      | ready completed =>
          rw [hpoll] at hready hround
          obtain rfl := RangePoll.ready.inj hready
          obtain ⟨bodies, hround⟩ := hround
          exact .inr ⟨before, bodies, rfl, hround⟩

/-- The headers of a range stay, and the request in flight is for what is missing. -/
theorem poll_requests {headers : List SealedHeader}
    {answered : List (Except PeerRequestError (List BlockBody))}
    (hpending : future.poll (start headers) answered = .pending state) :
    state.headers = headers ∧ state.fut.hashes = state.missing := by
  induction answered using List.reverseRecOn generalizing state with
  | nil =>
      obtain rfl : start headers = state := RangePoll.pending.inj hpending
      exact ⟨rfl, rfl⟩
  | append_singleton answered response ih =>
      obtain ⟨before, hbefore, hheaders, -, hhashes⟩ := exists_pending_round hpending
      exact ⟨hheaders.trans (ih hbefore).1, hhashes⟩

/-! ## Bodies under their headers -/

variable (future) in
/-- Every body passes the check against the header at its place. -/
def Aligned (headers : List SealedHeader) (bodies : List BlockBody) : Prop :=
  ∀ (i : ℕ) (body : BlockBody), bodies[i]? = some body →
    ∃ header, headers[i]? = some header ∧ future.Valid body header

variable (future) in
/-- **A response that moves no body under a header it does not fit**: a body that is
valid for the header at its own place is also valid for the header it moves up to
when the invalid bodies before it are left out. -/
def InPlace (headers : List SealedHeader) (pending : List BlockBody) : Prop :=
  ∀ (i : ℕ) (header : SealedHeader) (body : BlockBody),
    (headers.zip pending)[i]? = some (header, body) →
    future.Valid body header → ∃ header', headers[((headers.zip pending).take i).countP fun pair =>
        future.Valid pair.2 pair.1]? = some header' ∧ future.Valid body header'

theorem Aligned.nil (headers : List SealedHeader) : future.Aligned headers [] :=
  fun _ _ hget => nomatch hget

/-- Fewer bodies stay aligned. -/
theorem Aligned.of_prefix {headers : List SealedHeader} {bodies bodies' : List BlockBody}
    (h : future.Aligned headers bodies) (hfewer : bodies' <+: bodies) :
    future.Aligned headers bodies' := by
  obtain ⟨later, rfl⟩ := hfewer
  intro i body hget
  apply h i body
  rw [List.getElem?_append_left (List.getElem?_eq_some_iff.mp hget).1]
  exact hget

/-- Bodies are added under the headers from the cursor on. -/
theorem aligned_append_iff {headers : List SealedHeader} {bodies added : List BlockBody} :
    future.Aligned headers (bodies ++ added) ↔
      future.Aligned headers bodies ∧ future.Aligned (headers.drop bodies.length) added := by
  constructor
  · intro h
    refine ⟨h.of_prefix (List.prefix_append _ _), fun i body hget => ?_⟩
    rw [List.getElem?_drop]
    apply h
    rw [List.getElem?_append_right (Nat.le_add_right _ _), Nat.add_sub_cancel_left]
    exact hget
  · rintro ⟨hbodies, hadded⟩ i body hget
    by_cases hlt : i < bodies.length
    · rw [List.getElem?_append_left hlt] at hget
      exact hbodies i body hget
    · have hle : bodies.length ≤ i := Nat.le_of_not_lt hlt
      rw [List.getElem?_append_right hle] at hget
      obtain ⟨header, hheader, hvalid⟩ := hadded _ body hget
      rw [List.getElem?_drop, Nat.add_sub_cancel' hle] at hheader
      exact ⟨header, hheader, hvalid⟩

/-- The kept bodies of a response are aligned exactly if none moved to a header it
does not fit. -/
theorem kept_aligned_iff {headers : List SealedHeader} {pending : List BlockBody} :
    future.Aligned headers (future.kept headers pending) ↔ future.InPlace headers pending := by
  constructor
  · intro h i header body hget hvalid
    apply h
    unfold kept
    rw [List.getElem?_map]
    have hkept := (getElem?_filter_eq_some (fun pair : SealedHeader × BlockBody =>
      decide (future.Valid pair.2 pair.1)) _ _ (header, body)).mpr
        ⟨i, hget, decide_eq_true hvalid, rfl⟩
    rw [hkept]
    rfl
  · intro h j body hget
    unfold kept at hget
    rw [List.getElem?_map] at hget
    obtain ⟨⟨header, body'⟩, hkept, rfl⟩ := Option.map_eq_some_iff.mp hget
    obtain ⟨i, hi, hvalid, rfl⟩ := (getElem?_filter_eq_some _ _ _ _).mp hkept
    exact h i header body' hi (of_decide_eq_true hvalid)

/-- What is kept of the first bodies is kept first. -/
theorem kept_take_initial (headers : List SealedHeader) (pending : List BlockBody) (n : ℕ) :
    future.kept headers (pending.take n) <+: future.kept headers pending := by
  unfold kept
  apply List.IsPrefix.map
  apply List.IsPrefix.filter
  induction pending generalizing headers n with
  | nil => rw [List.take_nil]
  | cons body pending ih =>
      match headers, n with
      | [], _ => exact List.prefix_refl _
      | _ :: _, 0 => exact List.nil_prefix
      | header :: headers, n + 1 =>
          rw [List.take_succ_cons, List.zip_cons_cons, List.zip_cons_cons]
          exact (List.prefix_cons_inj _).mpr (ih headers n)

end FetchFullBlockRangeFuture

end ZkRess
