import ZkRess.Engine.BlockRange

/-!
# Each header with its own body

A range of full blocks is to pair every header with a body that was validated
against that very header.  The download does so exactly if no response moves a body
under a header it does not fit (`InPlace`).  It can: after an invalid body the loop
goes on with the next header and the next body, and a body it then accepts is put
under the cursor, which did not advance (`not_pairsOwnBodies_of_invalid_first`).
-/

namespace ZkRess

namespace FetchFullBlockRangeFuture

variable {future : FetchFullBlockRangeFuture} {headers : List SealedHeader}
  {responses : List (Except PeerRequestError (List BlockBody))}

/-- The range is handed out in the order of its headers, each with a body that
passes the check against it. -/
structure Paired (future : FetchFullBlockRangeFuture) (headers : List SealedHeader)
    (blocks : List Block) : Prop where
  length_eq : blocks.length = headers.length
  own : ∀ (i : ℕ) (header : SealedHeader), headers[i]? = some header →
    ∃ body, blocks[i]? = some (.fromSealedParts header body) ∧ future.Valid body header

/-- The bodies so far are under their headers, and the missing hashes are those of
the headers without a body. -/
structure Progresses (future : FetchFullBlockRangeFuture) (headers : List SealedHeader)
    (state : FullBlockRangeBodiesDownloadState) : Prop where
  aligned : future.Aligned headers state.bodies
  missing_eq : ∀ hash, hash ∈ state.missing ↔
    ∃ (i : ℕ) (header : SealedHeader), headers[i]? = some header ∧ state.bodies[i]? = none ∧
      header.hash = hash

/-- **Each header gets its own body**: in the result, between the rounds, and inside
the loop over a response, after any number of its bodies. -/
structure PairsOwnBodies (future : FetchFullBlockRangeFuture) (headers : List SealedHeader)
    (responses : List (Except PeerRequestError (List BlockBody))) : Prop where
  resolved : ∀ answered blocks, answered <+: responses →
    future.poll (start headers) answered = .ready blocks → Paired future headers blocks
  between : ∀ answered state, answered <+: responses →
    future.poll (start headers) answered = .pending state → Progresses future headers state
  inside : ∀ answered pending n state, answered ++ [.ok pending] <+: responses →
    future.poll (start headers) answered = .pending state →
      Progresses future headers
        (future.acceptBodies (headers.drop state.bodies.length) (pending.take n) state)

/-- No response moves a body under a header it does not fit. -/
def AllInPlace (future : FetchFullBlockRangeFuture) (headers : List SealedHeader)
    (responses : List (Except PeerRequestError (List BlockBody))) : Prop :=
  ∀ answered response state, answered ++ [response] <+: responses →
    future.poll (start headers) answered = .pending state →
      future.InPlace (headers.drop state.bodies.length) (received response)

/-- Aligned bodies leave the headers past them without one. -/
theorem Progresses.of_aligned {state : FullBlockRangeBodiesDownloadState}
    (hheaders : state.headers = headers) (haligned : future.Aligned headers state.bodies) :
    Progresses future headers state := by
  refine ⟨haligned, fun hash => ?_⟩
  unfold FullBlockRangeBodiesDownloadState.missing
  rw [List.mem_map, hheaders]
  constructor
  · rintro ⟨header, hmem, rfl⟩
    obtain ⟨i, hget⟩ := List.mem_iff_getElem?.mp hmem
    rw [List.getElem?_drop] at hget
    exact ⟨_, header, hget, List.getElem?_eq_none (Nat.le_add_right _ _), rfl⟩
  · rintro ⟨i, header, hget, hnone, rfl⟩
    have hle : state.bodies.length ≤ i := List.getElem?_eq_none_iff.mp hnone
    refine ⟨header, List.mem_iff_getElem?.mpr ⟨i - state.bodies.length, ?_⟩, rfl⟩
    rw [List.getElem?_drop, Nat.add_sub_cancel' hle]
    exact hget

/-- Aligned bodies for all headers make the range. -/
theorem Paired.of_aligned {bodies : List BlockBody} (hle : headers.length ≤ bodies.length)
    (haligned : future.Aligned headers bodies) :
    Paired future headers (List.zipWith Block.fromSealedParts headers bodies) := by
  constructor
  · rw [List.length_zipWith]
    exact Nat.min_eq_left hle
  · intro i header hheader
    have hlt : i < bodies.length := (List.getElem?_eq_some_iff.mp hheader).1.trans_le hle
    have hbody : bodies[i]? = some bodies[i] := List.getElem?_eq_getElem hlt
    refine ⟨bodies[i], ?_, ?_⟩
    · rw [List.getElem?_zipWith, hheader, hbody]
    · obtain ⟨header', hheader', hvalid⟩ := haligned i _ hbody
      obtain rfl : header = header' := Option.some.inj (hheader.symm.trans hheader')
      exact hvalid

/-- A round keeps the bodies aligned if its response moves none. -/
theorem aligned_round {state : FullBlockRangeBodiesDownloadState} {pending : List BlockBody}
    (haligned : future.Aligned headers state.bodies)
    (hinPlace : future.InPlace (headers.drop state.bodies.length) pending) :
    future.Aligned headers
      (state.bodies ++ future.kept (headers.drop state.bodies.length) pending) :=
  aligned_append_iff.mpr ⟨haligned, kept_aligned_iff.mpr hinPlace⟩

/-- **Run lemma**: while no response moves a body, the bodies are aligned. -/
theorem poll_aligned (hinPlace : AllInPlace future headers responses)
    {answered : List (Except PeerRequestError (List BlockBody))}
    {state : FullBlockRangeBodiesDownloadState} (hanswered : answered <+: responses)
    (hpending : future.poll (start headers) answered = .pending state) :
    future.Aligned headers state.bodies := by
  induction answered using List.reverseRecOn generalizing state with
  | nil =>
      obtain rfl : start headers = state := RangePoll.pending.inj hpending
      exact .nil headers
  | append_singleton answered response ih =>
      have hearlier : answered <+: responses := (List.prefix_append _ _).trans hanswered
      obtain ⟨before, hbefore, -, hbodies, -⟩ := exists_pending_round hpending
      rw [hbodies, (poll_requests hbefore).1]
      exact aligned_round (ih hearlier hbefore)
        (hinPlace answered response before hanswered hbefore)

/-- **Each header gets its own body exactly if no response moves a body** under a
header it does not fit. -/
theorem pairsOwnBodies_iff (headers : List SealedHeader)
    (responses : List (Except PeerRequestError (List BlockBody))) :
    PairsOwnBodies future headers responses ↔ AllInPlace future headers responses := by
  constructor
  · intro h answered response state hanswered hpending
    rw [← kept_aligned_iff]
    match response with
    | .error _ =>
        unfold received kept
        rw [List.zip_nil_right]
        exact .nil _
    | .ok pending =>
        have hinside := (h.inside answered pending pending.length state hanswered hpending).aligned
        rw [List.take_length, (acceptBodies_spec _ _ _ _).2] at hinside
        exact (aligned_append_iff.mp hinside).2
  · intro h
    refine ⟨fun answered blocks hanswered hready => ?_, fun answered state hanswered hpending =>
      .of_aligned (poll_requests hpending).1 (poll_aligned h hanswered hpending),
      fun answered pending n state hanswered hpending => ?_⟩
    · -- the response that resolved the future is one of those answered
      induction answered using List.reverseRecOn with
      | nil => cases hready
      | append_singleton answered response ih =>
          have hearlier : answered <+: responses := (List.prefix_append _ _).trans hanswered
          obtain hready | ⟨before, bodies, hbefore, rfl, hle, rfl⟩ := ready_or_exists_round hready
          · exact ih hearlier hready
          · rw [(poll_requests hbefore).1] at hle ⊢
            exact .of_aligned hle (aligned_round (poll_aligned h hearlier hbefore)
              (h answered response before hanswered hbefore))
    · have hheaders := (poll_requests hpending).1
      obtain ⟨hkept, hbodies⟩ := acceptBodies_spec future state
        (headers.drop state.bodies.length) (pending.take n)
      apply Progresses.of_aligned (hkept.trans hheaders)
      rw [hbodies]
      have hearlier : answered <+: responses := (List.prefix_append _ _).trans hanswered
      have hall := aligned_round (poll_aligned h hearlier hpending)
        (h answered (.ok pending) state hanswered hpending)
      exact hall.of_prefix ((List.prefix_append_right_inj _).mpr (kept_take_initial _ _ n))

/-- The body of a block is its number, in one byte. -/
def numberedBodies : FetchFullBlockRangeFuture where
  validateBodyAgainstHeader body header :=
    if body = [UInt8.ofNat header.number] then .ok () else .error (.other "body mismatch")
  retryDelay := 1

/-- Block 2 and its parent, as they are requested. -/
def fallingHeaders : List SealedHeader := [⟨⟨1, 2, 0, 0⟩, 2⟩, ⟨⟨0, 1, 0, 0⟩, 1⟩]

/-- An invalid body and the parent's body, then the parent's body again: both headers
get the parent's body. -/
theorem not_pairsOwnBodies_of_invalid_first :
    ¬∀ (future : FetchFullBlockRangeFuture) (headers : List SealedHeader)
      (responses : List (Except PeerRequestError (List BlockBody))),
      headers ≠ [] → PairsOwnBodies future headers responses := by
  intro hclaim
  have hresolves : numberedBodies.poll (start fallingHeaders) [.ok [[7], [1]], .ok [[1]]]
      = .ready [⟨⟨⟨1, 2, 0, 0⟩, 2⟩, [1]⟩, ⟨⟨⟨0, 1, 0, 0⟩, 1⟩, [1]⟩] := by
    rfl
  obtain ⟨body, hblock, hvalid⟩ := ((hclaim numberedBodies fallingHeaders _
    (List.cons_ne_nil _ _)).resolved _ _ (List.prefix_refl _) hresolves).own 0 _ rfl
  obtain rfl : [1] = body := congrArg Block.body (Option.some.inj hblock)
  exact absurd hvalid (by decide)

end FetchFullBlockRangeFuture

end ZkRess
