import ZkRess.Engine.FutureDownloader

/-!
# What the downloader still owes

A request is pending from its acceptance until its outcome is delivered: first it is in
flight, then its outcome is queued.  A poll delivers the outcome of one pending request, or
of none, and leaves the other requests pending (`poll_pendingRequests`); it delivers nothing
only if no outcome is queued and no request in flight is answered (`poll_eq_none`).
-/

namespace ZkRess

variable {P : Type}

/-- The request an outcome is for. -/
def DownloadData.request : DownloadData P → RequestKind × B256
  | .fullBlock block => (.fullBlock, block.hash)
  | .proof blockHash _ => (.proof, blockHash)
  | .finalizedBlock block _ => (.finalizedBlock, block.hash)

/-- What the future of a request answers. -/
def DownloadAnswers.answer (answers : DownloadAnswers P) :
    RequestKind × B256 → Option (DownloadData P)
  | (.fullBlock, blockHash) => (answers.fullBlock blockHash).map .fullBlock
  | (.proof, blockHash) => (answers.proof blockHash).map (.proof blockHash)
  | (.finalizedBlock, blockHash) =>
      (answers.finalizedBlock blockHash).map fun answer => .finalizedBlock answer.1 answer.2

/-- The answers to some requests are for them. -/
def DownloadAnswers.Fits (answers : DownloadAnswers P) (requests : List (RequestKind × B256)) :
    Prop :=
  ∀ request ∈ requests, ∀ data, answers.answer request = some data → data.request = request

/-- The first element of a list, and the others. -/
theorem toList_head?_append_tail {α : Type} (l : List α) :
    l.head?.toList ++ l.tail = l := by
  cases l <;> rfl

namespace EngineDownloader

/-- All requests in flight, in the order of a poll. -/
def inFlight (downloader : EngineDownloader P) : List (RequestKind × B256) :=
  downloader.inflightFinalizedBlockRequests.map (RequestKind.finalizedBlock, ·) ++
    downloader.inflightFullBlockRequests.map (RequestKind.fullBlock, ·) ++
    downloader.inflightProofRequests.map (RequestKind.proof, ·)

/-- The requests in flight, and those whose outcomes are queued. -/
def pendingRequests (downloader : EngineDownloader P) : List (RequestKind × B256) :=
  downloader.inFlight ++ downloader.outcomes.map DownloadData.request

/-! ## Sweeping over one list -/

/-- **A sweep over the requests of a list** queues the answers, the last one first, and keeps
the requests that are not answered. -/
theorem advance_eq (answer : B256 → Option (DownloadData P)) (inflight : List B256)
    (outcomes : List (DownloadData P)) :
    ∃ kept, kept.Perm (inflight.filter fun hash => (answer hash).isNone) ∧
      advance answer inflight.length inflight outcomes
        = (kept, outcomes ++ inflight.reverse.filterMap answer) := by
  -- a hash stands for its future
  let pollUnpin : B256 → FuturePoll B256 (DownloadData P) := fun hash =>
    ((answer hash).map FuturePoll.ready).getD (.pending hash)
  have hdata : ∀ hash, (pollUnpin hash).data = answer hash := by
    intro hash
    cases h : answer hash <;> simp [pollUnpin, h, FuturePoll.data]
  have hfuture : ∀ hash, (pollUnpin hash).future
      = Option.guard (fun hash => (answer hash).isNone) hash := by
    intro hash
    cases h : answer hash <;> simp [pollUnpin, h, FuturePoll.future, Option.guard]
  have hkeeps : ∀ hash ∈ inflight, ∀ hash', pollUnpin hash = .pending hash' →
      id hash' = id hash := by
    intro hash _ hash' hpending
    have hsome := FuturePoll.future_eq_some.mpr hpending
    rw [hfuture, Option.guard_eq_some_iff] at hsome
    exact hsome.1.symm
  have hsweep := advance_hashes answer inflight [] outcomes hkeeps fun hash _ => (hdata hash).symm
  obtain ⟨kept, hperm, heq⟩ := advanceFutures_spec pollUnpin inflight [] outcomes
  simp only [List.append_nil, List.map_id] at hsweep hperm heq
  rw [heq] at hsweep
  refine ⟨kept, ?_, ?_⟩
  · simp only [hfuture] at hperm
    rwa [List.filterMap_eq_filter] at hperm
  · simp only [hdata] at hsweep
    exact hsweep

/-- The answers are for the requests that are not kept. -/
private theorem sweep_perm {answers : DownloadAnswers P} {kind : RequestKind}
    {inflight kept : List B256} (hfits : answers.Fits (inflight.map (kind, ·)))
    (hkept : kept.Perm (inflight.filter fun hash => (answers.answer (kind, hash)).isNone)) :
    ((inflight.reverse.filterMap fun hash => answers.answer (kind, hash)).map
        DownloadData.request ++ kept.map (kind, ·)).Perm (inflight.map (kind, ·)) := by
  refine ((List.Perm.refl _).append (hkept.map _)).trans ?_
  clear hkept
  induction inflight with
  | nil => exact .refl _
  | cons hash inflight ih =>
      replace ih := ih fun request hmem => hfits request (List.mem_cons_of_mem _ hmem)
      rw [List.reverse_cons, List.filterMap_append, List.map_append, List.map_cons]
      cases hanswer : answers.answer (kind, hash) with
      | none =>
          simp only [List.filter_cons, List.filterMap_cons, hanswer, Option.isNone_none, if_true,
            List.filterMap_nil, List.map_nil, List.append_nil, List.map_cons]
          exact List.perm_middle.trans (ih.cons _)
      | some data =>
          simp only [List.filter_cons, List.filterMap_cons, hanswer, Option.isNone_some,
            Bool.false_eq_true, if_false, List.filterMap_nil, List.map_cons, List.map_nil,
            hfits (kind, hash) List.mem_cons_self data hanswer, List.append_assoc,
            List.singleton_append]
          exact List.perm_middle.trans (ih.cons _)

/-! ## Polling -/

variable {downloader downloader' : EngineDownloader P} {answers : DownloadAnswers P}
  {polled : Option (DownloadData P)}

/-- What a poll adds to an empty queue. -/
def settledData (downloader : EngineDownloader P) (answers : DownloadAnswers P) :
    List (DownloadData P) :=
  (downloader.inflightFinalizedBlockRequests.reverse.filterMap fun hash =>
      answers.answer (.finalizedBlock, hash)) ++
    (downloader.inflightFullBlockRequests.reverse.filterMap fun hash =>
      answers.answer (.fullBlock, hash)) ++
    downloader.inflightProofRequests.reverse.filterMap fun hash => answers.answer (.proof, hash)

theorem mem_settledData {data : DownloadData P} :
    data ∈ downloader.settledData answers ↔
      ∃ request ∈ downloader.inFlight, answers.answer request = some data := by
  unfold settledData inFlight
  simp only [List.mem_append, List.mem_filterMap, List.mem_reverse, List.mem_map, or_and_right,
    exists_or, exists_exists_and_eq_and]

/-- With an empty queue, a poll advances all requests, and returns the first outcome. -/
theorem poll_of_drained (hdrained : downloader.outcomes = []) (answers : DownloadAnswers P) :
    ∃ finalized fullBlocks proofs,
      finalized.Perm (downloader.inflightFinalizedBlockRequests.filter fun hash =>
        (answers.answer (.finalizedBlock, hash)).isNone) ∧
      fullBlocks.Perm (downloader.inflightFullBlockRequests.filter fun hash =>
        (answers.answer (.fullBlock, hash)).isNone) ∧
      proofs.Perm (downloader.inflightProofRequests.filter fun hash =>
        (answers.answer (.proof, hash)).isNone) ∧
      downloader.poll answers = ((downloader.settledData answers).head?,
        ⟨fullBlocks, proofs, finalized, (downloader.settledData answers).tail⟩) := by
  obtain ⟨finalized, hfinalized, heq₁⟩ := advance_eq
    (fun hash => answers.answer (.finalizedBlock, hash))
    downloader.inflightFinalizedBlockRequests []
  obtain ⟨fullBlocks, hfullBlocks, heq₂⟩ := advance_eq
    (fun hash => answers.answer (.fullBlock, hash)) downloader.inflightFullBlockRequests
    ([] ++ downloader.inflightFinalizedBlockRequests.reverse.filterMap fun hash =>
      answers.answer (.finalizedBlock, hash))
  obtain ⟨proofs, hproofs, heq₃⟩ := advance_eq
    (fun hash => answers.answer (.proof, hash)) downloader.inflightProofRequests
    (([] ++ downloader.inflightFinalizedBlockRequests.reverse.filterMap fun hash =>
      answers.answer (.finalizedBlock, hash)) ++
      downloader.inflightFullBlockRequests.reverse.filterMap fun hash =>
        answers.answer (.fullBlock, hash))
  simp only [DownloadAnswers.answer] at heq₁ heq₂ heq₃
  refine ⟨finalized, fullBlocks, proofs, hfinalized, hfullBlocks, hproofs, ?_⟩
  unfold poll
  rw [hdrained]
  simp only [heq₁, heq₂, heq₃]
  rfl

/-- **A poll delivers the outcome of one request**, or of none, and the others stay pending. -/
theorem poll_pendingRequests (hfits : answers.Fits downloader.inFlight)
    (h : downloader.poll answers = (polled, downloader')) :
    (polled.toList.map DownloadData.request ++ downloader'.pendingRequests).Perm
      downloader.pendingRequests := by
  cases hqueue : downloader.outcomes with
  | cons outcome outcomes =>
      have hpoll : downloader.poll answers = (some outcome, { downloader with outcomes }) := by
        unfold poll
        rw [hqueue]
      cases hpoll.symm.trans h
      unfold pendingRequests
      rw [hqueue, List.map_cons]
      have hmiddle := @List.perm_middle _ (DownloadData.request outcome) downloader.inFlight
        (outcomes.map DownloadData.request)
      exact hmiddle.symm
  | nil =>
      obtain ⟨finalized, fullBlocks, proofs, hfinalized, hfullBlocks, hproofs, heq⟩ :=
        poll_of_drained hqueue answers
      cases heq.symm.trans h
      unfold inFlight at hfits
      have hsweep₁ := sweep_perm (fun request hmem => hfits request
        (List.mem_append_left _ (List.mem_append_left _ hmem))) hfinalized
      have hsweep₂ := sweep_perm (fun request hmem => hfits request
        (List.mem_append_left _ (List.mem_append_right _ hmem))) hfullBlocks
      have hsweep₃ := sweep_perm (fun request hmem => hfits request
        (List.mem_append_right _ hmem)) hproofs
      -- what is returned and what is queued is what was settled
      have hsettled := congrArg (List.map DownloadData.request)
        (toList_head?_append_tail (downloader.settledData answers))
      unfold pendingRequests inFlight
      rw [hqueue, List.map_nil, List.append_nil]
      rw [List.perm_iff_count] at hsweep₁ hsweep₂ hsweep₃ ⊢
      intro request
      have hcount := congrArg (List.count request) hsettled
      have hcount₁ := hsweep₁ request
      have hcount₂ := hsweep₂ request
      have hcount₃ := hsweep₃ request
      simp only [settledData, List.map_append, List.count_append]
        at hcount hcount₁ hcount₂ hcount₃ ⊢
      omega

/-- What a poll delivers or leaves in the queue was queued or is answered. -/
theorem poll_outcomes (h : downloader.poll answers = (polled, downloader'))
    {data : DownloadData P} (hdata : polled = some data ∨ data ∈ downloader'.outcomes) :
    data ∈ downloader.outcomes ∨
      ∃ request ∈ downloader.inFlight, answers.answer request = some data := by
  cases hqueue : downloader.outcomes with
  | cons outcome outcomes =>
      have hpoll : downloader.poll answers = (some outcome, { downloader with outcomes }) := by
        unfold poll
        rw [hqueue]
      cases hpoll.symm.trans h
      refine .inl (List.mem_cons.mpr (hdata.imp_left fun hsome => ?_))
      exact (Option.some.inj hsome).symm
  | nil =>
      obtain ⟨finalized, fullBlocks, proofs, -, -, -, heq⟩ := poll_of_drained hqueue answers
      cases heq.symm.trans h
      exact .inr (mem_settledData.mp (hdata.elim List.mem_of_mem_head? List.mem_of_mem_tail))

/-- **A poll delivers nothing** only if nothing is queued and nothing is answered. -/
theorem poll_eq_none (h : downloader.poll answers = (none, downloader')) :
    downloader.outcomes = [] ∧
      ∀ request ∈ downloader.inFlight, answers.answer request = none := by
  cases hqueue : downloader.outcomes with
  | cons outcome outcomes =>
      unfold poll at h
      rw [hqueue] at h
      cases h
  | nil =>
      obtain ⟨finalized, fullBlocks, proofs, -, -, -, heq⟩ := poll_of_drained hqueue answers
      have hnone := congrArg Prod.fst (heq.symm.trans h)
      replace hnone := List.head?_eq_none_iff.mp hnone
      refine ⟨rfl, fun request hmem => Option.eq_none_iff_forall_not_mem.mpr fun data hdata => ?_⟩
      have hsettled := mem_settledData.mpr ⟨request, hmem, hdata⟩
      rw [hnone] at hsettled
      cases hsettled

end EngineDownloader

end ZkRess
