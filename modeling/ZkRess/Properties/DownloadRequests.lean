import ZkRess.Engine.RequestLedger

/-!
# The downloader keeps its requests

In any sequence of calls of the downloader, whatever the futures answer when they are
polled: an accepted request is in flight, queued or delivered, in one of these places and
once.  The ledger of the sequence (`RequestLedger`) follows the downloader call by call,
and accounts for every request by its serial number.
-/

namespace ZkRess

variable {P : Type}

/-- A call of the downloader. -/
inductive DownloaderCall (P : Type)
  | downloadFullBlock (blockHash : B256)
  | downloadProof (blockHash : B256)
  | downloadFinalizedWithAncestors (blockHash : B256)
  /-- The downloader is polled, and the futures in flight answer. -/
  | poll (answers : DownloadAnswers P)

def EngineDownloader.apply (downloader : EngineDownloader P) :
    DownloaderCall P → EngineDownloader P
  | .downloadFullBlock blockHash => downloader.downloadFullBlock blockHash
  | .downloadProof blockHash => downloader.downloadProof blockHash
  | .downloadFinalizedWithAncestors blockHash =>
      downloader.downloadFinalizedWithAncestors blockHash
  | .poll answers => (downloader.poll answers).2

/-- The downloader after a sequence of calls. -/
def EngineDownloader.applyAll (downloader : EngineDownloader P)
    (calls : List (DownloaderCall P)) : EngineDownloader P :=
  calls.foldl apply downloader

namespace RequestLedger

def apply (ledger : RequestLedger P) : DownloaderCall P → RequestLedger P
  | .downloadFullBlock blockHash => ledger.accept .fullBlock blockHash
  | .downloadProof blockHash => ledger.accept .proof blockHash
  | .downloadFinalizedWithAncestors blockHash => ledger.accept .finalizedBlock blockHash
  | .poll answers => (ledger.poll answers).2

/-- The ledger of a sequence of calls. -/
def applyAll (ledger : RequestLedger P) (calls : List (DownloaderCall P)) : RequestLedger P :=
  calls.foldl apply ledger

variable {ledger : RequestLedger P}

/-- One call keeps the books balanced, and is the downloader's. -/
theorem Balanced.apply (h : ledger.Balanced) (call : DownloaderCall P) :
    (ledger.apply call).Balanced ∧ (ledger.apply call).erase = ledger.erase.apply call := by
  match call with
  | .downloadFullBlock blockHash => exact ⟨h.accept _ _, erase_accept ledger .fullBlock blockHash⟩
  | .downloadProof blockHash => exact ⟨h.accept _ _, erase_accept ledger .proof blockHash⟩
  | .downloadFinalizedWithAncestors blockHash =>
      exact ⟨h.accept _ _, erase_accept ledger .finalizedBlock blockHash⟩
  | .poll answers =>
      exact ⟨h.poll answers, (congrArg Prod.snd (erase_poll h.kinds answers)).symm⟩

/-- So does a sequence of calls. -/
theorem Balanced.applyAll (h : ledger.Balanced) (calls : List (DownloaderCall P)) :
    (ledger.applyAll calls).Balanced ∧
      (ledger.applyAll calls).erase = ledger.erase.applyAll calls := by
  induction calls generalizing ledger with
  | nil => exact ⟨h, rfl⟩
  | cons call calls ih =>
      obtain ⟨hbalanced, herase⟩ := h.apply call
      obtain ⟨hbalanced', herase'⟩ := ih hbalanced
      rw [herase] at herase'
      exact ⟨hbalanced', herase'⟩

end RequestLedger

/-- **The requests of a downloader are accounted for.** -/
structure AccountsFor (ledger : RequestLedger P) (downloader : EngineDownloader P) : Prop where
  /-- The ledger is the downloader, with serial numbers and a history. -/
  erase : ledger.erase = downloader
  /-- At most one request for a kind and hash is in flight. -/
  distinctFullBlocks : downloader.inflightFullBlockRequests.Nodup
  distinctProofs : downloader.inflightProofRequests.Nodup
  distinctFinalizedBlocks : downloader.inflightFinalizedBlockRequests.Nodup
  /-- Every accepted request is in one place, once. -/
  accepted : ledger.accepted.Nodup
  conserved : (ledger.allInflight ++ ledger.queued.map Prod.fst ++
    ledger.delivered.map Prod.fst).Perm ledger.accepted
  /-- Outcomes are delivered in the order in which they were queued; each is what the
  future of its request answered. -/
  ordered : ledger.filed = ledger.delivered ++ ledger.queued
  own : ∀ outcome ∈ ledger.filed, ∃ answers, outcome.1.answer answers = some outcome.2

/-- **What a poll does.** -/
structure PollsFairly (ledger : RequestLedger P) (downloader : EngineDownloader P)
    (answers : DownloadAnswers P) : Prop where
  /-- The poll returns the outcome that is delivered. -/
  returned : (downloader.poll answers).1 = (ledger.poll answers).1.map Prod.snd
  delivered : (ledger.poll answers).2.delivered
    = ledger.delivered ++ (ledger.poll answers).1.toList
  /-- If nothing was queued, every request in flight is polled once. -/
  polled : ∃ polled, (ledger.poll answers).2.polled = ledger.polled ++ polled ∧
    (downloader.outcomes = [] → polled.Perm ledger.allInflight) ∧
    (downloader.outcomes ≠ [] → polled = [])
  /-- It is pending only if nothing is queued, before or after. -/
  pending : (downloader.poll answers).1 = none →
    downloader.outcomes = [] ∧ (downloader.poll answers).2.outcomes = []

/-- **No request is lost, duplicated or starved**, in any sequence of calls. -/
theorem requestsKept (calls : List (DownloaderCall P)) :
    AccountsFor (RequestLedger.new.applyAll calls) (EngineDownloader.new.applyAll calls) ∧
      ∀ answers, PollsFairly (RequestLedger.new.applyAll calls)
        (EngineDownloader.new.applyAll calls) answers := by
  obtain ⟨hbalanced, herase⟩ := (RequestLedger.Balanced.new (P := P)).applyAll calls
  generalize RequestLedger.new.applyAll calls = ledger at hbalanced herase ⊢
  replace herase : ledger.erase = EngineDownloader.new.applyAll calls := herase
  rw [← herase]
  refine ⟨?_, fun answers => ?_⟩
  · exact
      { erase := rfl
        distinctFullBlocks := hbalanced.distinct .fullBlock
        distinctProofs := hbalanced.distinct .proof
        distinctFinalizedBlocks := hbalanced.distinct .finalizedBlock
        accepted := .of_map AcceptedRequest.serial (hbalanced.numbered ▸ List.nodup_range)
        conserved := by
          have hconserved := hbalanced.conserved
          rw [hbalanced.ordered, List.map_append] at hconserved
          rw [List.append_assoc]
          exact (List.perm_append_comm.append_left _).trans hconserved
        ordered := hbalanced.ordered
        own := hbalanced.own }
  · have hpoll := RequestLedger.erase_poll hbalanced.kinds answers
    have hqueue : ledger.erase.outcomes = [] ↔ ledger.queued = [] := List.map_eq_nil_iff
    exact
      { returned := congrArg Prod.fst hpoll
        delivered := RequestLedger.poll_delivered ledger answers
        polled := by
          rw [hqueue, ne_eq, hqueue]
          exact RequestLedger.poll_polled ledger answers
        pending := fun hnone => by
          rw [hpoll] at hnone ⊢
          obtain ⟨hbefore, hafter⟩ :=
            RequestLedger.queued_of_pending (Option.map_eq_none_iff.mp hnone)
          exact ⟨hqueue.mpr hbefore, List.map_eq_nil_iff.mpr hafter⟩ }

end ZkRess
