import ZkRess.Engine.Downloads

/-!
# Keeping account of the requests

The downloader knows a request by its block hash, and the same hash can be requested again
once its outcome is queued.  `RequestLedger` is the downloader with every accepted request
told apart by a serial number, and with the history that the downloader forgets: which
requests were accepted, in which order they were polled, which outcomes were queued and
which were delivered.

Without serial numbers and history the ledger is the downloader (`erase_accept`,
`erase_poll`).  A sweep over the requests in flight goes through them backwards, whatever
the futures answer: the elements that `swap_remove` and `push` move are those it has polled
already (`sweep_spec`).
-/

namespace ZkRess

open Foundation

variable {P : Type}

/-- The kinds of requests. -/
inductive RequestKind
  | fullBlock
  | proof
  | finalizedBlock
  deriving DecidableEq, Repr

/-- A request that was accepted; the serial number tells it from others for its hash. -/
structure AcceptedRequest where
  kind : RequestKind
  blockHash : B256
  serial : ℕ
  deriving DecidableEq, Repr

/-- What the future of the request answers when it is polled. -/
def AcceptedRequest.answer (answers : DownloadAnswers P) (request : AcceptedRequest) :
    Option (DownloadData P) :=
  match request.kind with
  | .fullBlock => (answers.fullBlock request.blockHash).map .fullBlock
  | .proof => (answers.proof request.blockHash).map (.proof request.blockHash)
  | .finalizedBlock =>
      (answers.finalizedBlock request.blockHash).map fun answer =>
        .finalizedBlock answer.1 answer.2

/-- An outcome, with the request it is for. -/
abbrev RequestOutcome (P : Type) := AcceptedRequest × DownloadData P

/-! ## Sweeping over the requests in flight -/

/-- A sweep under way: the requests in flight, the outcomes so far, and the requests
polled so far. -/
structure Sweep (P : Type) where
  inflight : List AcceptedRequest
  outcomes : List (RequestOutcome P)
  polled : List AcceptedRequest

/-- Advance the requests at the indexes below `n`, the highest first. -/
def Sweep.advance (answer : AcceptedRequest → Option (DownloadData P)) : ℕ → Sweep P → Sweep P
  | 0, sweep => sweep
  | n + 1, sweep =>
      match EngineDownloader.swapRemove sweep.inflight n with
      | none => advance answer n sweep
      | some (request, rest) =>
          match answer request with
          | some data =>
              advance answer n
                ⟨rest, sweep.outcomes ++ [(request, data)], sweep.polled ++ [request]⟩
          | none =>
              advance answer n ⟨rest ++ [request], sweep.outcomes, sweep.polled ++ [request]⟩

/-- The outcomes of requests that are polled in this order. -/
def outcomesOf (answer : AcceptedRequest → Option (DownloadData P))
    (requests : List AcceptedRequest) : List (RequestOutcome P) :=
  requests.filterMap fun request => (answer request).map fun data => (request, data)

/-- `swap_remove` takes out the element at an index, and moves those behind it only. -/
theorem swapRemove_append {α : Type} (front : List α) (a : α) (back : List α) :
    ∃ back', back'.Perm back ∧
      EngineDownloader.swapRemove (front ++ a :: back) front.length = some (a, front ++ back') := by
  unfold EngineDownloader.swapRemove
  have hget : (front ++ a :: back)[front.length]? = some a := by simp
  have hset : ∀ last, (front ++ a :: back).set front.length last = front ++ last :: back := by
    intro last
    simp
  rcases List.eq_nil_or_concat' back with rfl | ⟨below, last, rfl⟩
  · refine ⟨[], .refl _, ?_⟩
    simp only [hget, hset, List.getLast?_concat, List.dropLast_concat, List.append_nil]
  · refine ⟨last :: below, (List.perm_append_singleton last below).symm, ?_⟩
    have hlast : (front ++ a :: (below ++ [last])).getLast? = some last := by
      rw [← List.cons_append, ← List.append_assoc, List.getLast?_concat]
    have hdrop : (front ++ last :: (below ++ [last])).dropLast = front ++ last :: below := by
      rw [← List.cons_append, ← List.append_assoc, List.dropLast_concat]
    simp only [hget, hset, hlast, hdrop]

/-- **A sweep polls each request once**, from the last to the first; the answered ones are
queued in this order, and the others stay in flight. -/
theorem Sweep.advance_spec (answer : AcceptedRequest → Option (DownloadData P))
    (front back : List AcceptedRequest) (outcomes : List (RequestOutcome P))
    (polled : List AcceptedRequest) :
    ∃ kept, kept.Perm (front.filter (fun request => (answer request).isNone) ++ back) ∧
      advance answer front.length ⟨front ++ back, outcomes, polled⟩
        = ⟨kept, outcomes ++ outcomesOf answer front.reverse, polled ++ front.reverse⟩ := by
  induction front using List.reverseRecOn generalizing back outcomes polled with
  | nil => exact ⟨back, .refl _, by simp [advance, outcomesOf]⟩
  | append_singleton front request ih =>
      rw [List.length_append, List.length_singleton, List.append_assoc, List.singleton_append]
      obtain ⟨back', hperm, hremove⟩ := swapRemove_append front request back
      simp only [advance, hremove]
      match hanswer : answer request with
      | some data =>
          obtain ⟨kept, hkept, heq⟩ := ih back' (outcomes ++ [(request, data)])
            (polled ++ [request])
          refine ⟨kept, hkept.trans ?_, ?_⟩
          · have hfilter : [request].filter (fun request => (answer request).isNone) = [] := by
              simp [hanswer]
            rw [List.filter_append, hfilter, List.append_nil]
            exact hperm.append_left _
          · simp only [heq, outcomesOf, List.reverse_append, List.reverse_singleton,
              List.singleton_append, List.filterMap_cons, hanswer, Option.map_some,
              List.append_assoc]
      | none =>
          obtain ⟨kept, hkept, heq⟩ := ih (back' ++ [request]) outcomes (polled ++ [request])
          rw [List.append_assoc]
          refine ⟨kept, hkept.trans ?_, ?_⟩
          · have hfilter :
              [request].filter (fun request => (answer request).isNone) = [request] := by
              simp [hanswer]
            rw [List.filter_append, hfilter, List.append_assoc]
            exact (List.perm_append_comm.trans (hperm.append_left [request])).append_left _
          · simp only [heq, outcomesOf, List.reverse_append, List.reverse_singleton,
              List.singleton_append, List.filterMap_cons, hanswer, Option.map_none,
              List.append_assoc]

/-! ## The ledger -/

/-- The requests of a downloader, and what became of them. -/
structure RequestLedger (P : Type) where
  inflight : RequestKind → List AcceptedRequest
  /-- Outcomes that wait to be delivered. -/
  queued : List (RequestOutcome P)
  /-- All requests accepted so far. -/
  accepted : List AcceptedRequest
  /-- The requests whose futures were polled, in this order. -/
  polled : List AcceptedRequest
  /-- All outcomes queued so far. -/
  filed : List (RequestOutcome P)
  /-- All outcomes delivered so far. -/
  delivered : List (RequestOutcome P)

namespace RequestLedger

/-- Nothing was requested yet. -/
def new : RequestLedger P := ⟨fun _ => [], [], [], [], [], []⟩

/-- Request a hash unless it is in flight. -/
def accept (ledger : RequestLedger P) (kind : RequestKind) (blockHash : B256) :
    RequestLedger P :=
  if blockHash ∈ (ledger.inflight kind).map AcceptedRequest.blockHash then ledger
  else
    let request := ⟨kind, blockHash, ledger.accepted.length⟩
    { ledger with
      inflight := Function.update ledger.inflight kind (ledger.inflight kind ++ [request])
      accepted := ledger.accepted ++ [request] }

/-- Advance all requests of one kind. -/
def sweep (answers : DownloadAnswers P) (ledger : RequestLedger P) (kind : RequestKind) :
    RequestLedger P :=
  let swept := Sweep.advance (AcceptedRequest.answer answers) (ledger.inflight kind).length
    ⟨ledger.inflight kind, [], []⟩
  { ledger with
    inflight := Function.update ledger.inflight kind swept.inflight
    queued := ledger.queued ++ swept.outcomes
    polled := ledger.polled ++ swept.polled
    filed := ledger.filed ++ swept.outcomes }

/-- Deliver the first outcome in the queue. -/
def deliver (ledger : RequestLedger P) : Option (RequestOutcome P) × RequestLedger P :=
  match ledger.queued with
  | [] => (none, ledger)
  | outcome :: queued =>
      (some outcome, { ledger with queued, delivered := ledger.delivered ++ [outcome] })

/-- Poll the downloader: the requests in flight are advanced if nothing is queued. -/
def poll (ledger : RequestLedger P) (answers : DownloadAnswers P) :
    Option (RequestOutcome P) × RequestLedger P :=
  match ledger.queued with
  | _ :: _ => ledger.deliver
  | [] =>
      (((ledger.sweep answers .finalizedBlock).sweep answers .fullBlock).sweep answers
        .proof).deliver

/-- All requests in flight, in the order in which a poll goes through the lists. -/
def allInflight (ledger : RequestLedger P) : List AcceptedRequest :=
  ledger.inflight .finalizedBlock ++ ledger.inflight .fullBlock ++ ledger.inflight .proof

/-- The downloader without serial numbers and history. -/
def erase (ledger : RequestLedger P) : EngineDownloader P where
  inflightFullBlockRequests := (ledger.inflight .fullBlock).map AcceptedRequest.blockHash
  inflightProofRequests := (ledger.inflight .proof).map AcceptedRequest.blockHash
  inflightFinalizedBlockRequests := (ledger.inflight .finalizedBlock).map AcceptedRequest.blockHash
  outcomes := ledger.queued.map Prod.snd

end RequestLedger

/-! ## Forgetting serial numbers and history -/

theorem swapRemove_map {α β : Type} (f : α → β) (l : List α) (idx : ℕ) :
    EngineDownloader.swapRemove (l.map f) idx
      = (EngineDownloader.swapRemove l idx).map (Prod.map f (List.map f)) := by
  unfold EngineDownloader.swapRemove
  rw [List.getElem?_map, List.getLast?_map]
  match l[idx]?, l.getLast? with
  | some a, some last => simp
  | some _, none | none, some _ | none, none => rfl

/-- A sweep that forgets serial numbers is the loop of the downloader. -/
theorem Sweep.erase_advance (answer : AcceptedRequest → Option (DownloadData P))
    (answer' : B256 → Option (DownloadData P)) (before : List (DownloadData P)) (n : ℕ)
    (sweep : Sweep P)
    (h : ∀ request ∈ sweep.inflight, answer request = answer' request.blockHash) :
    EngineDownloader.advance answer' n (sweep.inflight.map AcceptedRequest.blockHash)
        (before ++ sweep.outcomes.map Prod.snd)
      = ((advance answer n sweep).inflight.map AcceptedRequest.blockHash,
        before ++ (advance answer n sweep).outcomes.map Prod.snd) := by
  induction n generalizing sweep with
  | zero => rfl
  | succ n ih =>
      simp only [EngineDownloader.advance, advance, swapRemove_map]
      cases hremove : EngineDownloader.swapRemove sweep.inflight n with
      | none => exact ih sweep h
      | some removed =>
          obtain ⟨request, rest⟩ := removed
          have hmem := fun other => (EngineDownloader.swapRemove_perm hremove).mem_iff (a := other)
          have hrequest := h request ((hmem request).mpr List.mem_cons_self)
          have hrest := fun other hother =>
            h other ((hmem other).mpr (List.mem_cons_of_mem _ hother))
          simp only [Option.map_some, Prod.map_apply, ← hrequest]
          cases hanswer : answer request with
          | some data =>
              have hnext := ih ⟨rest, sweep.outcomes ++ [(request, data)],
                sweep.polled ++ [request]⟩ hrest
              rw [List.map_append, ← List.append_assoc] at hnext
              exact hnext
          | none =>
              have hnext := ih ⟨rest ++ [request], sweep.outcomes, sweep.polled ++ [request]⟩
                (List.forall_mem_append.mpr ⟨hrest, List.forall_mem_singleton.mpr (h request
                  ((hmem request).mpr List.mem_cons_self))⟩)
              rw [List.map_append] at hnext
              exact hnext

namespace RequestLedger

variable {ledger : RequestLedger P}

/-- **A request of the ledger is one of the downloader.** -/
theorem erase_accept (ledger : RequestLedger P) (kind : RequestKind) (blockHash : B256) :
    (ledger.accept kind blockHash).erase = match kind with
      | .fullBlock => ledger.erase.downloadFullBlock blockHash
      | .proof => ledger.erase.downloadProof blockHash
      | .finalizedBlock => ledger.erase.downloadFinalizedWithAncestors blockHash := by
  unfold accept EngineDownloader.downloadFullBlock EngineDownloader.downloadProof
    EngineDownloader.downloadFinalizedWithAncestors EngineDownloader.request
  by_cases hmem : blockHash ∈ (ledger.inflight kind).map AcceptedRequest.blockHash
  · rw [if_pos hmem]
    match kind, hmem with
    | .fullBlock, hmem | .proof, hmem | .finalizedBlock, hmem =>
        simp only [erase, hmem, if_true]
  · rw [if_neg hmem]
    match kind, hmem with
    | .fullBlock, hmem | .proof, hmem | .finalizedBlock, hmem =>
        simp [erase, hmem, Function.update]

theorem erase_deliver (ledger : RequestLedger P) :
    (ledger.deliver.1.map Prod.snd, ledger.deliver.2.erase)
      = (ledger.erase.outcomes.head?,
        { ledger.erase with outcomes := ledger.erase.outcomes.tail }) := by
  unfold deliver
  match hqueued : ledger.queued with
  | [] => simp [erase, hqueued]
  | outcome :: queued => simp [erase, hqueued]

/-- **A poll of the ledger is one of the downloader**, if the requests in flight are filed
under their kinds. -/
theorem erase_poll (hkinds : ∀ kind, ∀ request ∈ ledger.inflight kind, request.kind = kind)
    (answers : DownloadAnswers P) :
    ledger.erase.poll answers
      = ((ledger.poll answers).1.map Prod.snd, (ledger.poll answers).2.erase) := by
  unfold poll EngineDownloader.poll
  match hqueued : ledger.queued with
  | outcome :: queued => simp [erase, deliver, hqueued]
  | [] =>
      have hsweep : ∀ (ledger' : RequestLedger P) (kind : RequestKind) answer,
          ledger'.inflight kind = ledger.inflight kind →
          (∀ hash, answer hash = AcceptedRequest.answer answers ⟨kind, hash, 0⟩) →
          EngineDownloader.advance answer ((ledger.inflight kind).map
              AcceptedRequest.blockHash).length ((ledger.inflight kind).map
              AcceptedRequest.blockHash) (ledger'.queued.map Prod.snd)
            = (((ledger'.sweep answers kind).inflight kind).map AcceptedRequest.blockHash,
              (ledger'.sweep answers kind).queued.map Prod.snd) := by
        intro ledger' kind answer hsame hanswer
        have herase := Sweep.erase_advance (AcceptedRequest.answer answers) answer
          (ledger'.queued.map Prod.snd) (ledger.inflight kind).length
          ⟨ledger.inflight kind, [], []⟩ fun request hmem => by
            rw [hanswer, ← hkinds kind request hmem]
            rfl
        rw [List.map_nil, List.append_nil] at herase
        rw [List.length_map, herase]
        simp [sweep, hsame]
      have hfinalized := hsweep ledger .finalizedBlock _ rfl fun _ => rfl
      have hfullBlocks :=
        hsweep (ledger.sweep answers .finalizedBlock) .fullBlock _ rfl fun _ => rfl
      have hproofs := hsweep ((ledger.sweep answers .finalizedBlock).sweep answers .fullBlock)
        .proof _ rfl fun _ => rfl
      rw [hqueued, List.map_nil] at hfinalized
      simp only [erase, hqueued, List.map_nil]
      simp only [AcceptedRequest.answer] at hfinalized hfullBlocks hproofs
      rw [hfinalized, hfullBlocks, hproofs]
      -- a sweep leaves the requests of other kinds alone
      exact (erase_deliver _).symm

/-! ## Keeping the books balanced -/

/-- **Every accepted request is in flight or has an outcome**, and is so once; the
outcomes are delivered in the order in which they were queued. -/
structure Balanced (ledger : RequestLedger P) : Prop where
  kinds : ∀ kind, ∀ request ∈ ledger.inflight kind, request.kind = kind
  distinct : ∀ kind, ((ledger.inflight kind).map AcceptedRequest.blockHash).Nodup
  numbered : ledger.accepted.map AcceptedRequest.serial = List.range ledger.accepted.length
  conserved : (ledger.allInflight ++ ledger.filed.map Prod.fst).Perm ledger.accepted
  ordered : ledger.filed = ledger.delivered ++ ledger.queued
  own : ∀ outcome ∈ ledger.filed, ∃ answers, outcome.1.answer answers = some outcome.2

/-- How often a request is in flight when the list of one kind is replaced. -/
private theorem count_allInflight {ledger ledger' : RequestLedger P} {kind : RequestKind}
    {requests : List AcceptedRequest}
    (h : ledger'.inflight = Function.update ledger.inflight kind requests)
    (request : AcceptedRequest) :
    ledger'.allInflight.count request + (ledger.inflight kind).count request
      = ledger.allInflight.count request + requests.count request := by
  unfold allInflight
  rw [h]
  match kind with
  | .fullBlock | .proof | .finalizedBlock =>
      simp [Function.update]
      omega

theorem outcomesOf_requests (answer : AcceptedRequest → Option (DownloadData P))
    (requests : List AcceptedRequest) :
    (outcomesOf answer requests).map Prod.fst
      = requests.filter fun request => (answer request).isSome := by
  induction requests with
  | nil => rfl
  | cons request requests ih =>
      unfold outcomesOf at ih ⊢
      match hanswer : answer request with
      | none => simp [hanswer, ih]
      | some data => simp [hanswer, ih]

theorem Balanced.new : (new : RequestLedger P).Balanced where
  kinds := nofun
  distinct _ := List.nodup_nil
  numbered := rfl
  conserved := .refl _
  ordered := rfl
  own := nofun

namespace Balanced

/-- Replacing the requests of one kind keeps the lists in order if the new list is. -/
private theorem update_kinds (h : ledger.Balanced) {kind : RequestKind}
    {requests : List AcceptedRequest} (hkinds : ∀ request ∈ requests, request.kind = kind) :
    ∀ kind', ∀ request ∈ Function.update ledger.inflight kind requests kind',
      request.kind = kind' :=
  (Function.forall_update_iff _ fun kind (requests : List AcceptedRequest) =>
    ∀ request ∈ requests, request.kind = kind).mpr ⟨hkinds, fun kind' _ => h.kinds kind'⟩

private theorem update_distinct (h : ledger.Balanced) {kind : RequestKind}
    {requests : List AcceptedRequest}
    (hdistinct : (requests.map AcceptedRequest.blockHash).Nodup) :
    ∀ kind', ((Function.update ledger.inflight kind requests kind').map
      AcceptedRequest.blockHash).Nodup :=
  (Function.forall_update_iff _ fun _ requests =>
    (List.map AcceptedRequest.blockHash requests).Nodup).mpr
    ⟨hdistinct, fun kind' _ => h.distinct kind'⟩

theorem accept (h : ledger.Balanced) (kind : RequestKind) (blockHash : B256) :
    (ledger.accept kind blockHash).Balanced := by
  unfold RequestLedger.accept
  by_cases hmem : blockHash ∈ (ledger.inflight kind).map AcceptedRequest.blockHash
  · rwa [if_pos hmem]
  · rw [if_neg hmem]
    have hkinds := List.forall_mem_append.mpr ⟨h.kinds kind,
      List.forall_mem_singleton.mpr (rfl : (⟨kind, blockHash, ledger.accepted.length⟩ :
        AcceptedRequest).kind = kind)⟩
    refine
      { kinds := h.update_kinds hkinds
        distinct := h.update_distinct ?_
        numbered := by simp [h.numbered, List.range_succ]
        conserved := List.perm_iff_count.mpr fun request => ?_
        ordered := h.ordered
        own := h.own }
    · rw [List.map_append, List.map_singleton]
      exact List.nodup_append'.mpr ⟨h.distinct kind, List.nodup_singleton _, by simpa using hmem⟩
    · have hold := List.perm_iff_count.mp h.conserved request
      have hcount := @count_allInflight P ledger { ledger with
        inflight := Function.update ledger.inflight kind
          (ledger.inflight kind ++ [⟨kind, blockHash, ledger.accepted.length⟩])
        accepted := ledger.accepted ++ [⟨kind, blockHash, ledger.accepted.length⟩] } kind _ rfl
        request
      rw [List.count_append] at hold hcount
      dsimp only at hcount ⊢
      rw [List.count_append, List.count_append]
      omega

/-- What a sweep does to the ledger. -/
private theorem sweep_spec (ledger : RequestLedger P) (answers : DownloadAnswers P)
    (kind : RequestKind) :
    ∃ kept, kept.Perm ((ledger.inflight kind).filter fun request =>
        (request.answer answers).isNone) ∧
      ledger.sweep answers kind = { ledger with
        inflight := Function.update ledger.inflight kind kept
        queued := ledger.queued ++
          outcomesOf (AcceptedRequest.answer answers) (ledger.inflight kind).reverse
        polled := ledger.polled ++ (ledger.inflight kind).reverse
        filed := ledger.filed ++
          outcomesOf (AcceptedRequest.answer answers) (ledger.inflight kind).reverse } := by
  obtain ⟨kept, hperm, heq⟩ := Sweep.advance_spec (AcceptedRequest.answer answers)
    (ledger.inflight kind) [] [] []
  rw [List.append_nil] at hperm heq
  refine ⟨kept, hperm, ?_⟩
  unfold RequestLedger.sweep
  simp only [heq, List.nil_append]

theorem sweep (h : ledger.Balanced) (answers : DownloadAnswers P) (kind : RequestKind) :
    (ledger.sweep answers kind).Balanced := by
  obtain ⟨kept, hperm, heq⟩ := sweep_spec ledger answers kind
  have hkinds : ∀ request ∈ kept, request.kind = kind := fun request hmem =>
    h.kinds kind request (List.mem_of_mem_filter (hperm.subset hmem))
  have hdistinct : (kept.map AcceptedRequest.blockHash).Nodup := by
    rw [(hperm.map _).nodup_iff]
    exact (h.distinct kind).sublist (List.filter_sublist.map _)
  refine
    { kinds := heq ▸ h.update_kinds hkinds
      distinct := heq ▸ h.update_distinct hdistinct
      numbered := heq ▸ h.numbered
      conserved := List.perm_iff_count.mpr fun request => ?_
      ordered := by rw [heq, h.ordered, List.append_assoc]
      own := fun outcome hmem => ?_ }
  · have hcount := count_allInflight (congrArg RequestLedger.inflight heq) request
    have hold := List.perm_iff_count.mp h.conserved request
    -- what is no longer in flight has an outcome
    have hsplit := List.perm_iff_count.mp
      (List.filter_append_perm (fun request => (AcceptedRequest.answer answers request).isNone)
        (ledger.inflight kind)) request
    have hfiled : (ledger.sweep answers kind).filed.map Prod.fst = ledger.filed.map Prod.fst ++
        (ledger.inflight kind).reverse.filter fun request => (request.answer answers).isSome := by
      rw [heq, List.map_append, outcomesOf_requests]
    have haccepted : (ledger.sweep answers kind).accepted = ledger.accepted := rfl
    simp only [Option.not_isNone] at hsplit
    rw [List.count_append] at hold hsplit
    rw [hperm.count_eq] at hcount
    rw [hfiled, haccepted, List.count_append, List.count_append, List.filter_reverse,
      List.count_reverse]
    omega
  · rw [heq] at hmem
    rcases List.mem_append.mp hmem with hold | hnew
    · exact h.own outcome hold
    · obtain ⟨request, -, hanswer⟩ := List.mem_filterMap.mp hnew
      obtain ⟨data, hdata, rfl⟩ := Option.map_eq_some_iff.mp hanswer
      exact ⟨answers, hdata⟩

theorem deliver (h : ledger.Balanced) : ledger.deliver.2.Balanced := by
  unfold RequestLedger.deliver
  match hqueued : ledger.queued with
  | [] => exact h
  | outcome :: queued =>
      refine { h with ordered := ?_ }
      rw [h.ordered, hqueued, List.append_cons]

theorem poll (h : ledger.Balanced) (answers : DownloadAnswers P) :
    (ledger.poll answers).2.Balanced := by
  unfold RequestLedger.poll
  match ledger.queued with
  | _ :: _ => exact h.deliver
  | [] => exact (((h.sweep answers _).sweep answers _).sweep answers _).deliver

end Balanced

/-! ## What a poll goes through -/

theorem deliver_polled (ledger : RequestLedger P) :
    ledger.deliver.2.polled = ledger.polled := by
  unfold deliver
  match ledger.queued with
  | [] | _ :: _ => rfl

/-- What a poll returns is delivered. -/
theorem deliver_delivered (ledger : RequestLedger P) :
    ledger.deliver.2.delivered = ledger.delivered ++ ledger.deliver.1.toList := by
  unfold deliver
  match ledger.queued with
  | [] => exact (List.append_nil _).symm
  | _ :: _ => rfl

theorem poll_delivered (ledger : RequestLedger P) (answers : DownloadAnswers P) :
    (ledger.poll answers).2.delivered
      = ledger.delivered ++ (ledger.poll answers).1.toList := by
  unfold poll
  match ledger.queued with
  | _ :: _ => exact deliver_delivered ledger
  | [] => exact deliver_delivered _

theorem sweep_polled (ledger : RequestLedger P) (answers : DownloadAnswers P)
    (kind : RequestKind) :
    (ledger.sweep answers kind).polled = ledger.polled ++ (ledger.inflight kind).reverse := by
  obtain ⟨kept, -, heq⟩ := Balanced.sweep_spec ledger answers kind
  rw [heq]

theorem sweep_inflight_of_ne (ledger : RequestLedger P) (answers : DownloadAnswers P)
    {kind other : RequestKind} (h : other ≠ kind) :
    (ledger.sweep answers kind).inflight other = ledger.inflight other :=
  Function.update_of_ne h _ _

/-- **A poll that finds no outcome polls every request in flight once.** -/
theorem poll_polled (ledger : RequestLedger P) (answers : DownloadAnswers P) :
    ∃ polled, (ledger.poll answers).2.polled = ledger.polled ++ polled ∧
      (ledger.queued = [] → polled.Perm ledger.allInflight) ∧
      (ledger.queued ≠ [] → polled = []) := by
  unfold poll
  match hqueued : ledger.queued with
  | _ :: _ => exact ⟨[], by simp [deliver_polled], nofun, fun _ => rfl⟩
  | [] =>
      refine ⟨(ledger.inflight .finalizedBlock).reverse ++ (ledger.inflight .fullBlock).reverse ++
        (ledger.inflight .proof).reverse, ?_, fun _ => ?_, fun h => absurd rfl h⟩
      · rw [deliver_polled, sweep_polled, sweep_polled, sweep_polled,
          sweep_inflight_of_ne _ _ (by decide), sweep_inflight_of_ne _ _ (by decide),
          sweep_inflight_of_ne _ _ (by decide), List.append_assoc, List.append_assoc,
          List.append_assoc]
      · exact ((List.reverse_perm _).append (List.reverse_perm _)).append (List.reverse_perm _)

/-- A poll is pending only if no outcome is left. -/
theorem queued_of_pending {answers : DownloadAnswers P} (h : (ledger.poll answers).1 = none) :
    ledger.queued = [] ∧ (ledger.poll answers).2.queued = [] := by
  have hdeliver : ∀ ledger' : RequestLedger P, ledger'.deliver.1 = none →
      ledger'.queued = [] ∧ ledger'.deliver.2.queued = [] := by
    intro ledger' hnone
    unfold deliver at hnone ⊢
    match hqueued : ledger'.queued with
    | [] => exact ⟨rfl, hqueued⟩
    | _ :: _ => simp [hqueued] at hnone
  unfold poll at h ⊢
  match hqueued : ledger.queued with
  | _ :: _ =>
      simp only [hqueued] at h
      exact absurd (hdeliver ledger h).1 (by simp [hqueued])
  | [] =>
      simp only [hqueued] at h
      exact ⟨rfl, (hdeliver _ h).2⟩

end RequestLedger

end ZkRess
