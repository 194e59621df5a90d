import ZkRess.Engine.TreeSteps

/-!
# Runs with the downloads they make

A download outcome does not come out of nowhere: it was requested, it was in
flight, and it waited in the queue of the downloader.  `Session` is the engine
together with its downloader, whose requests are advanced by the answers of the
network and whose queue is processed one outcome at a time.  A session is a run
(`Session.run`), and polling is one (`Session.round`).

What a result needs of the downloader is whether the block or the proof of a hash
is pending, in flight or queued.  Polling loses nothing of that but the outcome it
returns (`fullBlockPending_poll`, `proofPending_poll`).
-/

namespace ZkRess

open Foundation

/-! ## What is pending -/

namespace EngineDownloader

variable {P : Type}

/-- A full block is in flight or queued. -/
def FullBlockPending (downloader : EngineDownloader P) (hash : B256) : Prop :=
  hash ∈ downloader.inflightFullBlockRequests ∨
    ∃ block, .fullBlock block ∈ downloader.outcomes ∧ block.hash = hash

/-- A proof is in flight or queued. -/
def ProofPending (downloader : EngineDownloader P) (hash : B256) : Prop :=
  hash ∈ downloader.inflightProofRequests ∨ ∃ proof, .proof hash proof ∈ downloader.outcomes

/-- Nothing is in flight, and nothing is queued. -/
structure Idle (downloader : EngineDownloader P) : Prop where
  fullBlocks : downloader.inflightFullBlockRequests = []
  proofs : downloader.inflightProofRequests = []
  finalizedBlocks : downloader.inflightFinalizedBlockRequests = []
  outcomes : downloader.outcomes = []

theorem Idle.not_fullBlockPending {downloader : EngineDownloader P} (h : downloader.Idle)
    (hash : B256) : ¬downloader.FullBlockPending hash := by
  rintro (hmem | ⟨block, hmem, -⟩)
  · rw [h.fullBlocks] at hmem
    cases hmem
  · rw [h.outcomes] at hmem
    cases hmem

theorem Idle.not_proofPending {downloader : EngineDownloader P} (h : downloader.Idle)
    (hash : B256) : ¬downloader.ProofPending hash := by
  rintro (hmem | ⟨proof, hmem⟩)
  · rw [h.proofs] at hmem
    cases hmem
  · rw [h.outcomes] at hmem
    cases hmem

/-! ### Requests -/

theorem mem_request {inflight : List B256} {hash hash' : B256} :
    hash' ∈ request inflight hash ↔ hash' ∈ inflight ∨ hash' = hash := by
  unfold request
  split
  · next hmem =>
      constructor
      · exact .inl
      · rintro (hold | rfl)
        · exact hold
        · exact hmem
  · rw [List.mem_append, List.mem_singleton]

variable {downloader : EngineDownloader P} {buffer : BlockBuffer P} {hash hash' : B256}

theorem proofPending_downloadProof :
    (downloader.downloadProof hash).ProofPending hash' ↔
      downloader.ProofPending hash' ∨ hash' = hash := by
  unfold ProofPending
  show (hash' ∈ request _ hash ∨ _) ↔ _
  rw [mem_request]
  exact or_right_comm

theorem fullBlockPending_downloadFullBlock :
    (downloader.downloadFullBlock hash).FullBlockPending hash' ↔
      downloader.FullBlockPending hash' ∨ hash' = hash := by
  unfold FullBlockPending
  show (hash' ∈ request _ hash ∨ _) ↔ _
  rw [mem_request]
  exact or_right_comm

/-- Requests only add to what is pending. -/
theorem proofPending_follow (event : Option TreeEvent) (h : downloader.ProofPending hash) :
    (downloader.follow buffer event).ProofPending hash := by
  match event with
  | some (.download (.block _)) =>
      simp only [follow]
      split
      · exact h
      · exact proofPending_downloadProof.mpr (.inl h)
  | some (.download (.proof _)) => exact proofPending_downloadProof.mpr (.inl h)
  | some (.download (.finalized _)) => exact h
  | some (.treeAction _) => exact h
  | none => exact h

/-- The request of a block is the only one for a full block. -/
theorem fullBlockPending_follow {event : Option TreeEvent} :
    (downloader.follow buffer event).FullBlockPending hash ↔
      downloader.FullBlockPending hash ∨ event = some (.downloadBlock hash) := by
  match event with
  | some (.download (.block requested)) =>
      have hiff : (downloader.follow buffer (some (.download (.block requested)))).FullBlockPending
          hash ↔ downloader.FullBlockPending hash ∨ hash = requested := by
        simp only [follow]
        split
        · exact fullBlockPending_downloadFullBlock
        · exact fullBlockPending_downloadFullBlock
      rw [hiff]
      refine or_congr_right ⟨fun heq => by rw [heq]; rfl, ?_⟩
      rintro ⟨⟩
      rfl
  | some (.download (.proof _)) => exact (or_iff_left nofun).symm
  | some (.download (.finalized _)) => exact (or_iff_left nofun).symm
  | some (.treeAction _) => exact (or_iff_left nofun).symm
  | none => exact (or_iff_left nofun).symm

/-- Nothing that is pending is forgotten. -/
structure Requests (downloader downloader' : EngineDownloader P) : Prop where
  fullBlocks : ∀ hash, downloader.FullBlockPending hash → downloader'.FullBlockPending hash
  proofs : ∀ hash, downloader.ProofPending hash → downloader'.ProofPending hash

theorem Requests.refl (downloader : EngineDownloader P) : Requests downloader downloader :=
  ⟨fun _ => id, fun _ => id⟩

theorem Requests.trans {downloader' downloader'' : EngineDownloader P}
    (h : Requests downloader downloader') (h' : Requests downloader' downloader'') :
    Requests downloader downloader'' :=
  ⟨fun hash hpending => h'.fullBlocks hash (h.fullBlocks hash hpending),
    fun hash hpending => h'.proofs hash (h.proofs hash hpending)⟩

theorem follow_requests (downloader : EngineDownloader P) (buffer : BlockBuffer P)
    (event : Option TreeEvent) : Requests downloader (downloader.follow buffer event) :=
  ⟨fun _ hpending => fullBlockPending_follow.mpr (.inl hpending),
    fun _ hpending => proofPending_follow event hpending⟩

theorem downloadProof_requests (downloader : EngineDownloader P) (hash : B256) :
    Requests downloader (downloader.downloadProof hash) :=
  ⟨fun _ hpending => hpending, fun _ hpending => proofPending_downloadProof.mpr (.inl hpending)⟩

/-! ### Polling -/

/-- `swap_remove` takes one element out. -/
theorem swapRemove_perm {α : Type} {l rest : List α} {idx : ℕ} {a : α}
    (h : swapRemove l idx = some (a, rest)) : l.Perm (a :: rest) := by
  unfold swapRemove at h
  split at h
  · next a' last hget hlast =>
      simp only [Option.some.injEq, Prod.mk.injEq] at h
      obtain ⟨rfl, rfl⟩ := h
      obtain ⟨hlt, hget⟩ := List.getElem?_eq_some_iff.mp hget
      have hsplit : l = l.take idx ++ a' :: l.drop (idx + 1) := by
        rw [← hget, List.getElem_cons_drop, List.take_append_drop]
      have hset : l.set idx last = l.take idx ++ last :: l.drop (idx + 1) :=
        List.set_eq_take_append_cons_drop.trans (if_pos hlt)
      rw [hset]
      rcases List.eq_nil_or_concat (l.drop (idx + 1)) with hnil | ⟨below, top, hconcat⟩
      · -- the last element itself was taken
        rw [hnil] at hsplit ⊢
        rw [List.dropLast_concat]
        have hperm : (l.take idx ++ [a']).Perm ([a'] ++ l.take idx) := List.perm_append_comm
        rwa [← hsplit] at hperm
      · rw [List.concat_eq_append] at hconcat
        have htop : top = last := by
          rw [hsplit, hconcat, ← List.cons_append, ← List.append_assoc,
            List.getLast?_concat] at hlast
          exact Option.some.inj hlast
        rw [hconcat, ← List.cons_append, ← List.append_assoc, List.dropLast_concat]
        have hperm : (l.take idx ++ a' :: (below ++ [top])).Perm
            (a' :: (l.take idx ++ last :: below)) := by
          rw [htop]
          refine List.perm_middle.trans (.cons a' (List.Perm.append_left _ ?_))
          exact List.perm_append_comm
        rw [← hconcat, ← hsplit] at hperm
        exact hperm
  · cases h

/-- What advancing requests does: those that are answered are queued, the others
stay in flight. -/
structure Advances (answer : B256 → Option (DownloadData P)) (inflight inflight' : List B256)
    (answered : List (DownloadData P)) : Prop where
  kept : ∀ hash ∈ inflight, hash ∈ inflight' ∨ ∃ data ∈ answered, answer hash = some data
  old : ∀ hash ∈ inflight', hash ∈ inflight
  asked : ∀ data ∈ answered, ∃ hash ∈ inflight, answer hash = some data

theorem advance_spec (answer : B256 → Option (DownloadData P)) (n : ℕ) (inflight : List B256)
    (outcomes : List (DownloadData P)) :
    ∃ answered, (advance answer n inflight outcomes).2 = outcomes ++ answered ∧
      Advances answer inflight (advance answer n inflight outcomes).1 answered := by
  induction n generalizing inflight outcomes with
  | zero => exact ⟨[], (List.append_nil _).symm, fun _ h => .inl h, fun _ h => h, nofun⟩
  | succ n ih =>
      simp only [advance]
      split
      · exact ih inflight outcomes
      · next request rest hremove =>
          have hmem := fun hash => (swapRemove_perm hremove).mem_iff (a := hash)
          simp only [List.mem_cons] at hmem
          split
          · next data hanswer =>
              obtain ⟨answered, heq, hspec⟩ := ih rest (outcomes ++ [data])
              refine ⟨data :: answered, by rw [heq, List.append_assoc]; rfl, fun hash hin => ?_,
                fun hash hin => (hmem hash).mpr (.inr (hspec.old hash hin)), fun data' hin => ?_⟩
              · rcases (hmem hash).mp hin with rfl | hrest
                · exact .inr ⟨data, List.mem_cons_self, hanswer⟩
                · refine (hspec.kept hash hrest).imp_right ?_
                  rintro ⟨data', hdata, hanswer'⟩
                  exact ⟨data', List.mem_cons_of_mem _ hdata, hanswer'⟩
              · rcases List.mem_cons.mp hin with rfl | hold
                · exact ⟨request, (hmem request).mpr (.inl rfl), hanswer⟩
                · obtain ⟨hash, hash_in, hanswer'⟩ := hspec.asked data' hold
                  exact ⟨hash, (hmem hash).mpr (.inr hash_in), hanswer'⟩
          · obtain ⟨answered, heq, hspec⟩ := ih (rest ++ [request]) outcomes
            have hmem' : ∀ hash, hash ∈ rest ++ [request] ↔ hash ∈ inflight := by
              intro hash
              rw [hmem, List.mem_append, List.mem_singleton, or_comm]
            refine ⟨answered, heq, fun hash hin => hspec.kept hash ((hmem' hash).mpr hin),
              fun hash hin => (hmem' hash).mp (hspec.old hash hin), fun data hin => ?_⟩
            obtain ⟨hash, hash_in, hanswer⟩ := hspec.asked data hin
            exact ⟨hash, (hmem' hash).mp hash_in, hanswer⟩

end EngineDownloader

namespace DownloadAnswers

variable {P : Type}

/-- A full block is delivered for its own hash: the future asks again until the
header it receives has the hash it asked for. -/
def Matching (answers : DownloadAnswers P) : Prop :=
  ∀ hash block, answers.fullBlock hash = some block → block.hash = hash

end DownloadAnswers

namespace EngineDownloader

variable {P : Type} {downloader downloader' : EngineDownloader P} {answers : DownloadAnswers P}
  {polled : Option (DownloadData P)}

/-- What a poll does to queue and requests: the outcomes that are queued already
or answered now are returned one at a time. -/
structure Polled (downloader : EngineDownloader P) (answers : DownloadAnswers P)
    (polled : Option (DownloadData P)) (downloader' : EngineDownloader P) : Prop where
  fullBlocks : ∃ answered : List (DownloadData P),
    Advances (fun hash => (answers.fullBlock hash).map .fullBlock)
      downloader.inflightFullBlockRequests downloader'.inflightFullBlockRequests answered ∧
    ∀ block, .fullBlock block ∈ downloader.outcomes ∨ .fullBlock block ∈ answered ↔
      polled = some (.fullBlock block) ∨ .fullBlock block ∈ downloader'.outcomes
  proofs : ∃ answered : List (DownloadData P),
    Advances (fun hash => (answers.proof hash).map (.proof hash))
      downloader.inflightProofRequests downloader'.inflightProofRequests answered ∧
    ∀ hash proof, .proof hash proof ∈ downloader.outcomes ∨ .proof hash proof ∈ answered ↔
      polled = some (.proof hash proof) ∨ .proof hash proof ∈ downloader'.outcomes

theorem Advances.refl (answer : B256 → Option (DownloadData P)) (inflight : List B256) :
    Advances answer inflight inflight [] :=
  ⟨fun _ h => .inl h, fun _ h => h, nofun⟩

/-- The first element of a list, and the others. -/
private theorem mem_iff_head_tail {α : Type} {a : α} {l : List α} :
    a ∈ l ↔ l.head? = some a ∨ a ∈ l.tail := by
  cases l with
  | nil => simp
  | cons b l => simp [eq_comm]

theorem poll_spec (h : downloader.poll answers = (polled, downloader')) :
    Polled downloader answers polled downloader' := by
  unfold poll at h
  split at h
  · next outcome outcomes hqueue =>
      cases h
      have hmem : ∀ data, data ∈ downloader.outcomes ↔
        some outcome = some data ∨ data ∈ outcomes := by
        intro data
        rw [hqueue, List.mem_cons, Option.some_inj, eq_comm]
      exact ⟨⟨[], .refl _ _, fun block => by rw [hmem]; simp⟩,
        ⟨[], .refl _ _, fun hash proof => by rw [hmem]; simp⟩⟩
  · next hqueue =>
      obtain ⟨finalized, hfinalized, hspec₁⟩ := advance_spec
        (fun hash => (answers.finalizedBlock hash).map fun answer =>
          (.finalizedBlock answer.1 answer.2 : DownloadData P))
        downloader.inflightFinalizedBlockRequests.length
        downloader.inflightFinalizedBlockRequests []
      obtain ⟨blocks, hblocks, hspec₂⟩ := advance_spec
        (fun hash => (answers.fullBlock hash).map (.fullBlock : Block → DownloadData P))
        downloader.inflightFullBlockRequests.length downloader.inflightFullBlockRequests finalized
      obtain ⟨proofs, hproofs, hspec₃⟩ := advance_spec
        (fun hash => (answers.proof hash).map (.proof hash : P → DownloadData P))
        downloader.inflightProofRequests.length downloader.inflightProofRequests
        (finalized ++ blocks)
      rw [List.nil_append] at hfinalized
      simp only [hfinalized, hblocks, hproofs, Prod.mk.injEq] at h
      obtain ⟨rfl, rfl⟩ := h
      -- the three kinds of answers do not mix
      have hnotFinalized : ∀ data ∈ finalized, ∃ block ancestors,
          data = .finalizedBlock block ancestors := by
        intro data hmem
        obtain ⟨hash, -, hanswer⟩ := hspec₁.asked data hmem
        obtain ⟨answer, -, rfl⟩ := Option.map_eq_some_iff.mp hanswer
        exact ⟨answer.1, answer.2, rfl⟩
      have hblock : ∀ data ∈ blocks, ∃ block, data = .fullBlock block := by
        intro data hmem
        obtain ⟨hash, -, hanswer⟩ := hspec₂.asked data hmem
        obtain ⟨block, -, rfl⟩ := Option.map_eq_some_iff.mp hanswer
        exact ⟨block, rfl⟩
      have hproof : ∀ data ∈ proofs, ∃ hash proof, data = .proof hash proof := by
        intro data hmem
        obtain ⟨hash, -, hanswer⟩ := hspec₃.asked data hmem
        obtain ⟨proof, -, rfl⟩ := Option.map_eq_some_iff.mp hanswer
        exact ⟨hash, proof, rfl⟩
      refine ⟨⟨blocks, hspec₂, fun block => ?_⟩, ⟨proofs, hspec₃, fun hash proof => ?_⟩⟩
      · rw [hqueue, ← mem_iff_head_tail, List.mem_append, List.mem_append]
        constructor
        · rintro (hnil | hmem)
          · cases hnil
          · exact .inl (.inr hmem)
        · rintro ((hmem | hmem) | hmem)
          · obtain ⟨_, _, heq⟩ := hnotFinalized _ hmem
            cases heq
          · exact .inr hmem
          · obtain ⟨_, _, heq⟩ := hproof _ hmem
            cases heq
      · rw [hqueue, ← mem_iff_head_tail, List.mem_append, List.mem_append]
        constructor
        · rintro (hnil | hmem)
          · cases hnil
          · exact .inr hmem
        · rintro ((hmem | hmem) | hmem)
          · obtain ⟨_, _, heq⟩ := hnotFinalized _ hmem
            cases heq
          · obtain ⟨_, heq⟩ := hblock _ hmem
            cases heq
          · exact .inr hmem

/-- **Polling loses no full block** but the one it returns. -/
theorem fullBlockPending_poll (hmatching : answers.Matching)
    (h : downloader.poll answers = (polled, downloader')) {hash : B256} :
    downloader.FullBlockPending hash ↔ downloader'.FullBlockPending hash ∨
      ∃ block, polled = some (.fullBlock block) ∧ block.hash = hash := by
  obtain ⟨answered, hadvances, hqueue⟩ := (poll_spec h).fullBlocks
  have hqueued : ∀ block, .fullBlock block ∈ downloader.outcomes ∨ .fullBlock block ∈ answered →
      block.hash = hash → downloader'.FullBlockPending hash ∨
        ∃ block, polled = some (.fullBlock block) ∧ block.hash = hash := by
    intro block hmem hhash
    rcases (hqueue block).mp hmem with hreturned | hleft
    · exact .inr ⟨block, hreturned, hhash⟩
    · exact .inl (.inr ⟨block, hleft, hhash⟩)
  have hback : ∀ block, polled = some (.fullBlock block) ∨ .fullBlock block ∈ downloader'.outcomes →
      block.hash = hash → downloader.FullBlockPending hash := by
    intro block hmem hhash
    rcases (hqueue block).mpr hmem with hold | hnew
    · exact .inr ⟨block, hold, hhash⟩
    · obtain ⟨asked, hasked, hanswer⟩ := hadvances.asked _ hnew
      obtain ⟨block', hblock', heq⟩ := Option.map_eq_some_iff.mp hanswer
      cases heq
      rw [← hhash, hmatching asked block hblock']
      exact .inl hasked
  constructor
  · rintro (hmem | ⟨block, hmem, hhash⟩)
    · rcases hadvances.kept hash hmem with hkept | ⟨data, hdata, hanswer⟩
      · exact .inl (.inl hkept)
      · obtain ⟨block, hblock, rfl⟩ := Option.map_eq_some_iff.mp hanswer
        exact hqueued block (.inr hdata) (hmatching hash block hblock)
    · exact hqueued block (.inl hmem) hhash
  · rintro ((hmem | ⟨block, hmem, hhash⟩) | ⟨block, hreturned, hhash⟩)
    · exact .inl (hadvances.old hash hmem)
    · exact hback block (.inr hmem) hhash
    · exact hback block (.inl hreturned) hhash

/-- **Polling loses no proof** but the one it returns. -/
theorem proofPending_poll (h : downloader.poll answers = (polled, downloader')) {hash : B256} :
    downloader.ProofPending hash ↔ downloader'.ProofPending hash ∨
      ∃ proof, polled = some (.proof hash proof) := by
  obtain ⟨answered, hadvances, hqueue⟩ := (poll_spec h).proofs
  have hqueued : ∀ proof, .proof hash proof ∈ downloader.outcomes ∨ .proof hash proof ∈ answered →
      downloader'.ProofPending hash ∨ ∃ proof, polled = some (.proof hash proof) := by
    intro proof hmem
    rcases (hqueue hash proof).mp hmem with hreturned | hleft
    · exact .inr ⟨proof, hreturned⟩
    · exact .inl (.inr ⟨proof, hleft⟩)
  have hback : ∀ proof, polled = some (.proof hash proof) ∨
      .proof hash proof ∈ downloader'.outcomes → downloader.ProofPending hash := by
    intro proof hmem
    rcases (hqueue hash proof).mpr hmem with hold | hnew
    · exact .inr ⟨proof, hold⟩
    · obtain ⟨asked, hasked, hanswer⟩ := hadvances.asked _ hnew
      obtain ⟨proof', -, heq⟩ := Option.map_eq_some_iff.mp hanswer
      cases heq
      exact .inl hasked
  constructor
  · rintro (hmem | ⟨proof, hmem⟩)
    · rcases hadvances.kept hash hmem with hkept | ⟨data, hdata, hanswer⟩
      · exact .inl (.inl hkept)
      · obtain ⟨proof, -, rfl⟩ := Option.map_eq_some_iff.mp hanswer
        exact hqueued proof (.inr hdata)
    · exact hqueued proof (.inl hmem)
  · rintro ((hmem | ⟨proof, hmem⟩) | ⟨proof, hreturned⟩)
    · exact .inl (hadvances.old hash hmem)
    · exact hback proof (.inr hmem)
    · exact hback proof (.inl hreturned)

end EngineDownloader

/-! ## What the engine requests -/

variable {X : Externals}

namespace ConsensusEngine

theorem onUnlockedHash_requests (σ : SetOrder B256) (engine : ConsensusEngine X)
    (unlocked : B256) :
    engine.downloader.Requests (engine.onUnlockedHash σ unlocked).downloader := by
  unfold onUnlockedHash
  split
  · exact .refl _
  · simp only [onMaybeTreeEvent_eq]
    split
    · exact engine.downloader.follow_requests _ _
    · split
      · exact engine.downloader.follow_requests _ _
      · exact engine.downloader.follow_requests _ _

theorem onDownloadOutcome_requests {σ : SetOrder B256} {engine engine' : ConsensusEngine X}
    {data : DownloadData X.Proof} (h : engine.onDownloadOutcome σ data = (.ok (), engine')) :
    engine.downloader.Requests engine'.downloader := by
  have hunlock : ∀ tree unlocked, engine.downloader.Requests
      (onUnlockedHash σ { engine with tree } unlocked).downloader :=
    fun tree unlocked => onUnlockedHash_requests σ { engine with tree } unlocked
  cases data with
  | finalizedBlock block ancestors =>
      simp only [onDownloadOutcome] at h
      split at h
      · cases h
        exact hunlock _ _
      · cases h
  | fullBlock block =>
      simp only [onDownloadOutcome] at h
      split at h
      · cases h
        exact hunlock _ _
      · cases h
        exact .refl _
  | proof blockHash proof =>
      simp only [onDownloadOutcome] at h
      cases h
      exact hunlock _ _

theorem onEngineMessage_requests (σ : SetOrder B256) (engine : ConsensusEngine X)
    (message : BeaconEngineMessage) :
    engine.downloader.Requests (engine.onEngineMessage σ message).downloader := by
  cases message with
  | newPayload payload tx =>
      cases onEngineMessage_newPayload_fully σ engine payload tx with
      | parked _ _ _ after =>
          rw [after]
          exact engine.downloader.downloadProof_requests _
      | quiet _ _ after =>
          rw [after]
          exact .refl _
      | @eventful outcome tree' treeEvent _ _ _ after =>
          rw [after]
          have hfollow := engine.downloader.follow_requests tree'.blockBuffer (some treeEvent)
          simp only [sendPayload]
          split
          · exact hfollow
          · exact hfollow.trans (EngineDownloader.downloadProof_requests _ _)
  | forkchoiceUpdated state payloadAttrs tx version =>
      simp only [onEngineMessage, sendForkchoice]
      split
      · exact .refl _
      · rw [onMaybeTreeEvent_eq]
        exact engine.downloader.follow_requests _ _

end ConsensusEngine

/-! ## Sessions -/

namespace ConsensusEngine

/-- **The engine with its downloader**, from `start` on.  Each message and each
outcome meets a condition on the order of the hash sets it iterates, on the state
before it, and on itself; an outcome has left the queue in that state. -/
inductive Session (meets : SetOrder B256 → ConsensusEngine X → Processed X.Proof → Prop)
    (start : ConsensusEngine X) : List (Processed X.Proof) → ConsensusEngine X → Prop
  | start : Session meets start [] start
  /-- Requests are advanced, and there is no outcome yet. -/
  | idle {trace engine downloader} (session : Session meets start trace engine)
      (answers : DownloadAnswers X.Proof) (matching : answers.Matching)
      (polled : engine.downloader.poll answers = (none, downloader)) :
      Session meets start trace { engine with downloader }
  /-- Requests are advanced, and an outcome is handled. -/
  | outcome {trace engine downloader data engine'} (session : Session meets start trace engine)
      (answers : DownloadAnswers X.Proof) (matching : answers.Matching)
      (polled : engine.downloader.poll answers = (some data, downloader)) (σ : SetOrder B256)
      (met : meets σ { engine with downloader } (.outcome data))
      (handled : { engine with downloader }.onDownloadOutcome σ data = (.ok (), engine')) :
      Session meets start (trace ++ [.outcome data]) engine'
  /-- A message is handled; no payload is parked. -/
  | message {trace engine} (session : Session meets start trace engine) (σ : SetOrder B256)
      (message : BeaconEngineMessage) (unparked : engine.parkedPayload = none)
      (met : meets σ engine (.message message)) :
      Session meets start (trace ++ [.message message]) (engine.onEngineMessage σ message)
  /-- The parked payload has waited too long. -/
  | timeout {trace engine} (session : Session meets start trace engine) (parked : ParkedPayload)
      (isParked : engine.parkedPayload = some parked) :
      Session meets start (trace ++ [.timeout parked]) (engine.onParkedTimeout parked)

variable {meets : SetOrder B256 → ConsensusEngine X → Processed X.Proof → Prop}
  {start engine : ConsensusEngine X} {trace : List (Processed X.Proof)}

/-- **A session is a run.** -/
theorem Session.fedRun {feed : Feed X}
    (hmeets : ∀ σ engine event, meets σ engine event → feed.Provides event)
    (session : Session meets start trace engine) : FedRun feed start trace engine := by
  induction session with
  | start => exact .start
  | idle _ _ _ _ ih => exact ih.polled _
  | outcome _ _ _ _ σ met handled ih =>
      exact (ih.polled _).step (hmeets _ _ _ met) (.outcome σ _ handled)
  | message _ σ message unparked met ih =>
      exact ih.step (hmeets _ _ _ met) (.message σ message unparked)
  | timeout _ parked isParked ih => exact ih.step trivial (.timeout parked isParked)

private theorem Session.pollMessage (session : Session (fun _ _ _ => True) start trace engine)
    (input : PollInput X) (unparked : engine.parkedPayload = none) :
    Session (fun _ _ _ => True) start (trace ++ (ConsensusEngine.pollMessage input engine).2.1)
      (ConsensusEngine.pollMessage input engine).2.2 := by
  unfold ConsensusEngine.pollMessage
  cases input.message with
  | none => simpa using session
  | some message => exact session.message input.order message unparked trivial

/-- **A round of polling continues a session**, if the network answers requests
for full blocks with the blocks they are for. -/
theorem Session.round (session : Session (fun _ _ _ => True) start trace engine)
    (input : PollInput X) (hmatching : input.answers.Matching)
    (hsound : ∀ fatal, (poll input engine).1 ≠ .failed fatal) :
    Session (fun _ _ _ => True) start (trace ++ (poll input engine).2.1)
      (poll input engine).2.2 := by
  unfold poll at hsound ⊢
  rcases hpolled : engine.downloader.poll input.answers with ⟨outcome, downloader⟩
  simp only [hpolled] at hsound ⊢
  cases outcome with
  | some data =>
      simp only at hsound ⊢
      split
      · next engine' heq =>
          exact session.outcome input.answers hmatching hpolled input.order trivial heq
      · next fatal engine' heq =>
          rw [heq] at hsound
          exact absurd rfl (hsound fatal)
  | none =>
      have hidle := session.idle input.answers hmatching hpolled
      simp only
      split
      · next unparked => exact hidle.pollMessage input unparked
      · next parked isParked =>
          split
          · have hmessage := (hidle.timeout parked isParked).pollMessage input rfl
            rw [List.append_assoc] at hmessage
            exact hmessage
          · simpa using hidle

end ConsensusEngine

end ZkRess
