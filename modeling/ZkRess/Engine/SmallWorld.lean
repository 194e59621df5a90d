import Mathlib.Data.List.Sort
import ZkRess.Engine.ChainUpdate
import ZkRess.Engine.DownloadFutures
import ZkRess.Engine.Downloads
import ZkRess.Provider.ChainOperations

/-!
# A small world

A concrete world to run the engine in: external parts that behave as the node's
own do on a handful of blocks, and feeds given by lists of headers.  Results that
need an instance of their assumptions, and runs in which a property fails, use
it.

A proof is a bit: whether it is complete.  With an incomplete one the verifier
arrives at another state root than the header's, as a re-execution on an
incomplete witness does.
-/

namespace ZkRess

open Foundation

/-! ## An iteration order -/

/-- Hashes by their value. -/
private def NotAbove (a b : B256) : Prop := a.toNat ≤ b.toNat

private instance : DecidableRel NotAbove :=
  fun a b => inferInstanceAs (Decidable (a.toNat ≤ b.toNat))

private instance : IsTrans B256 NotAbove := ⟨fun _ _ _ h h' => Nat.le_trans h h'⟩

private instance : Std.Total NotAbove := ⟨fun a b => Nat.le_total a.toNat b.toNat⟩

private instance : Std.Antisymm NotAbove :=
  ⟨fun _ _ h h' => BitVec.eq_of_toNat_eq (Nat.le_antisymm h h')⟩

/-- Hash sets iterated by ascending hash. -/
def ascending : SetOrder B256 where
  toList s := Quot.liftOn s.val (fun l => l.insertionSort NotAbove) fun l l' hperm =>
    ((List.perm_insertionSort NotAbove l).trans
      (hperm.trans (List.perm_insertionSort NotAbove l').symm)).eq_of_pairwise'
      (List.pairwise_insertionSort NotAbove l) (List.pairwise_insertionSort NotAbove l')
  nodup s := by
    obtain ⟨⟨l⟩, hnodup⟩ := s
    exact (List.perm_insertionSort NotAbove l).nodup_iff.mpr hnodup
  mem_toList s a := by
    obtain ⟨⟨l⟩, hnodup⟩ := s
    exact List.mem_insertionSort NotAbove

/-! ## External parts -/

namespace SmallWorld

/-- Remember a block, unless it is remembered already. -/
def remember (entries : FiniteMap B256 BlockWithParent) (hash : B256) (block : BlockWithParent) :
    FiniteMap B256 BlockWithParent :=
  if (entries.get hash).isSome then entries else entries.insert hash block

theorem remember_adds {entries : FiniteMap B256 BlockWithParent} {hash hash' : B256}
    {block entry : BlockWithParent} (h : (remember entries hash block).get hash' = some entry) :
    (hash' = hash ∧ entry = block) ∨ entries.get hash' = some entry := by
  unfold remember at h
  split at h
  · exact .inr h
  · rw [FiniteMap.get_insert] at h
    split at h
    · next heq =>
        cases h
        exact .inl ⟨heq, rfl⟩
    · exact .inr h

theorem isSome_remember {entries : FiniteMap B256 BlockWithParent} {hash hash' : B256}
    {block : BlockWithParent} :
    ((remember entries hash block).get hash').isSome ↔
      hash' = hash ∨ (entries.get hash').isSome := by
  unfold remember
  split
  · next hknown =>
      refine ⟨.inr, fun h => h.elim (fun heq => ?_) id⟩
      rwa [heq]
  · rw [FiniteMap.get_insert]
    split
    · next heq => exact iff_of_true rfl (.inl heq)
    · next hne => exact (or_iff_right hne).symm

/-- An invalid-header cache that forgets nothing. -/
def cache : InvalidHeaderCache where
  State := FiniteMap B256 BlockWithParent
  new := ∅
  contents s := s
  get s hash := (s.get hash, s)
  insert s block := remember s block.block.hash block
  insertWithInvalidAncestor s head block := remember s head block

theorem cache_lawful : cache.Lawful where
  new_empty hash := FiniteMap.get_empty hash
  get_sound _ _ _ h := h
  get_shrinks _ _ _ _ h := h
  insert_adds _ _ _ _ h := remember_adds h
  insertWith_adds _ _ _ _ _ h := remember_adds h

/-- A tracker that remembers the sync target. -/
def tracker : ForkchoiceStateTracker where
  State := Option ForkchoiceState
  default := none
  setLatest s state
    | .syncing => some state
    | .valid => none
    | .invalid => s
  syncTargetState s := s

theorem tracker_lawful : tracker.Lawful where
  default_none := rfl
  syncing _ _ := rfl
  valid _ _ := rfl
  invalid _ _ := rfl

/-- The verifier: the number is checked against the parent's, and an incomplete
proof leads to another state root. -/
def verify (_ : ChainState Bool) (block : Block) (parent : SealedHeader) (proof : Bool) :
    Except VerifierError Unit :=
  if block.number ≠ parent.number + 1 then
    .error (.consensus (.other "parent block number mismatch"))
  else if proof then .ok ()
  else .error (.consensus (.bodyStateRootDiff 0 block.stateRoot))

/-- `ensure_validation_error`: consensus errors and failed transactions are the
block's fault. -/
def ensureValidationError :
    InsertBlockErrorKind → Except InsertBlockFatalError InsertBlockValidationError
  | .consensus (.bodyStateRootDiff _ _) => .ok ⟨"mismatched block state root"⟩
  | .consensus (.other message) => .ok ⟨message⟩
  | .execution (.validation message) => .ok ⟨message⟩
  | .execution (.internal _) => .error (.blockExecutionError "internal")
  | .provider error => .error (.provider error)
  | .other message => .error (.blockExecutionError message)

/-- `forkchoice_status`: a failed check of the payload attributes leaves the
update valid. -/
def forkchoiceStatus : OnForkChoiceUpdated → ForkchoiceStatus
  | .valid ⟨.syncing, _⟩ => .syncing
  | .valid ⟨.invalid _, _⟩ => .invalid
  | .valid _ => .valid
  | .withInvalid _ => .invalid
  | .invalidState => .invalid
  | .invalidPayloadAttributes => .valid

/-- The external parts of the small world. -/
def externals : Externals where
  Proof := Bool
  invalidHeaderCache := cache
  forkchoiceStateTracker := tracker
  validateHeader _ := .ok ()
  validateBlockPreExecution _ := .ok ()
  ensureWellFormedPayload payload :=
    .ok ⟨⟨⟨payload.parentHash, payload.blockNumber, 0, 0⟩, payload.blockHash⟩, payload.encoded⟩
  validatePayloadAttributesAgainstHeader _ _ := true
  payloadBuilderAttributesTryNew _ _ _ := true
  tryRecover _ := true
  verify := verify
  ensureValidationError := ensureValidationError
  forkchoiceStatus := forkchoiceStatus

theorem verifiesNumber : externals.VerifiesNumber := by
  intro provider block parent proof h
  by_contra hne
  have h' : SmallWorld.verify provider block parent proof = .ok () := h
  unfold SmallWorld.verify at h'
  rw [if_pos hne] at h'
  cases h'

theorem tracksSyncing : externals.TracksSyncing := by
  intro updated
  constructor
  · intro h
    cases updated with
    | valid status =>
        obtain ⟨status, latest⟩ := status
        cases status with
        | syncing => exact ⟨latest, rfl⟩
        | valid => cases h
        | invalid => cases h
        | accepted => cases h
    | withInvalid => cases h
    | invalidState => cases h
    | invalidPayloadAttributes => cases h
  · rintro ⟨latest, rfl⟩
    rfl

/-! ## Checks of downloads -/

/-- A child names its parent and is numbered one above it. -/
def checkParent (child parent : SealedHeader) : Except ConsensusError Unit :=
  if child.parentHash = parent.hash ∧ child.number = parent.number + 1 then .ok ()
  else .error (.other "parent mismatch")

theorem checkParent_ok {child parent : SealedHeader} :
    checkParent child parent = .ok () ↔
      child.parentHash = parent.hash ∧ child.number = parent.number + 1 := by
  unfold checkParent
  split
  · next hlinked => exact iff_of_true rfl hlinked
  · next hlinked => exact iff_of_false (fun h => nomatch h) hlinked

/-- Each child in a rising range, after its parent. -/
def checkRange : SealedHeader → List SealedHeader → Except ConsensusError Unit
  | _, [] => .ok ()
  | parent, child :: rest =>
      match checkParent child parent with
      | .error error => .error error
      | .ok () => checkRange child rest

theorem checkRange_ok {parent : SealedHeader} {rest : List SealedHeader} :
    checkRange parent rest = .ok () ↔
      (parent :: rest).IsChain fun parent child => checkParent child parent = .ok () := by
  induction rest generalizing parent with
  | nil => exact iff_of_true rfl (.singleton _)
  | cons child rest ih =>
      rw [List.isChain_cons_cons, checkRange]
      match hcheck : checkParent child parent with
      | .error error => exact iff_of_false (by rintro ⟨⟩) (by rintro ⟨⟨⟩, -⟩)
      | .ok () => exact ih.trans (and_iff_right rfl).symm

/-- Headers carry their hash, any header is valid on its own, and a body is valid when
it is empty. -/
def downloads : DownloadExternals where
  WireHeader := SealedHeader
  fields header := header.toHeader
  hashSlow header := header.hash
  validateHeader _ := .ok ()
  validateHeaderAgainstParent := checkParent
  validateHeaderRange
    | [] => .ok ()
    | first :: rest => checkRange first rest
  validateBodyAgainstHeader body _ := if body = [] then .ok () else .error (.other "body mismatch")

theorem downloads_checksRange : downloads.ChecksRange := by
  intro headers
  match headers with
  | [] => exact iff_of_true rfl ⟨fun _ _ => rfl, .nil⟩
  | first :: rest =>
      exact checkRange_ok.trans ⟨fun hpairs => ⟨fun _ _ => rfl, hpairs⟩,
        fun hpasses => hpasses.pairs⟩

theorem downloads_checksParent : downloads.ChecksParent :=
  fun _ _ hcheck => checkParent_ok.mp hcheck

/-! ## Blocks and feeds -/

/-- A header of the small world. -/
def header (hash parentHash : B256) (number : ℕ) : SealedHeader :=
  ⟨⟨parentHash, number, 0, 0⟩, hash⟩

/-- A block of the small world. -/
def block (hash parentHash : B256) (number : ℕ) : Block := ⟨header hash parentHash number, []⟩

/-- The payload of a block of the small world. -/
def payload (block : Block) : ExecutionData :=
  ⟨block.hash, block.parentHash, block.number, block.body⟩

/-- The header each hash stands for, when these are all the headers. -/
def preimageOf (headers : List SealedHeader) : Preimage :=
  fun hash => headers.find? fun header => header.hash = hash

theorem preimageOf_keyed (headers : List SealedHeader) (hash : B256) (header : SealedHeader)
    (h : preimageOf headers hash = some header) : header.hash = hash := by
  simpa using List.find?_some h

theorem mem_of_preimageOf {headers : List SealedHeader} {hash : B256} {header : SealedHeader}
    (h : preimageOf headers hash = some header) : header ∈ headers :=
  List.mem_of_find?_eq_some h

/-- The feed of everything that conforms to a preimage function, with the given
proofs for each block. -/
def feed (preimage : Preimage)
    (hkeyed : ∀ hash header, preimage hash = some header → header.hash = hash)
    (proofs : Set Bool) : Feed externals where
  preimage := preimage
  preimage_keyed := hkeyed
  blocks := {block | block.toSealedHeader.Conforms preimage}
  proofs _ := proofs
  finalized := {pair | pair.1.toSealedHeader.Conforms preimage ∧
    (∀ header ∈ pair.2, header.Conforms preimage) ∧ pair.2 ≠ [] ∧
      HashLinked pair.1.toSealedHeader pair.2}
  states := Set.univ
  blocks_conform _ hblock := hblock
  finalized_conform _ hpair := hpair.1
  ancestors_conform _ hpair := hpair.2.1

theorem feed_linked {preimage : Preimage}
    {hkeyed : ∀ hash header, preimage hash = some header → header.hash = hash}
    {proofs : Set Bool} : (feed preimage hkeyed proofs).Linked :=
  fun _ hpair => hpair.2.2

instance {preimage : Preimage}
    {hkeyed : ∀ hash header, preimage hash = some header → header.hash = hash} :
    DecidablePred (feed preimage hkeyed Set.univ).Provides := fun
  | .message (.newPayload payload _) =>
      decidable_of_iff (preimage payload.blockHash
          = some (header payload.blockHash payload.parentHash payload.blockNumber)) <| by
        constructor
        · intro hconf block hformed
          cases hformed
          exact ⟨hconf, rfl⟩
        · intro hprovides
          exact (hprovides _ rfl).1
  | .message (.forkchoiceUpdated _ _ _ _) => isTrue trivial
  | .outcome (.fullBlock block) =>
      decidable_of_iff (preimage block.hash = some block.toSealedHeader) Iff.rfl
  | .outcome (.proof _ _) => isTrue trivial
  | .outcome (.finalizedBlock block ancestors) =>
      decidable_of_iff (preimage block.hash = some block.toSealedHeader ∧
        (∀ header ∈ ancestors, preimage header.hash = some header) ∧ ancestors ≠ [] ∧
          HashLinked block.toSealedHeader ancestors) Iff.rfl
  | .timeout _ => isTrue trivial

/-- The feed of the listed headers, with all proofs. -/
abbrev feedOf (headers : List SealedHeader) : Feed externals :=
  feed (preimageOf headers) (preimageOf_keyed headers) Set.univ

/-- A block is downloaded, and then its proof. -/
def deliver (block : Block) : List (ConsensusEngine.Processed externals.Proof) :=
  [.outcome (.fullBlock block), .outcome (.proof block.hash true)]

/-! ## A fork -/

/-- A genesis block, a chain 2, 3, 4 on it, and a fork 5, 6 on it. -/
def forkHeaders : List SealedHeader :=
  [header 1 0 0, header 2 1 1, header 3 2 2, header 4 3 3, header 5 1 1, header 6 5 2]

/-- The feed of the two chains. -/
abbrev forkFeed : Feed externals := feedOf forkHeaders

theorem fork_numbersStep {cs : ChainState Bool} (hsound : cs.Sound forkFeed.preimage) :
    cs.NumbersStep := by
  have hlisted : ∀ header ∈ forkHeaders, ∀ parent ∈ forkHeaders,
      parent.hash = header.parentHash → header.number = parent.number + 1 := by
    decide +kernel
  intro hash header parent hstored hparent
  have hheader := mem_of_preimageOf (hsound.preimage_of_sealedHeader hstored)
  have hknown := mem_of_preimageOf (hsound.preimage_of_sealedHeader hparent)
  exact hlisted header hheader parent hknown (ChainState.hash_of_sealedHeader hparent)

theorem fork_isGenesis : forkFeed.IsGenesis (block 1 0 0) where
  conforms := by decide +kernel
  number := rfl
  noParent := by decide +kernel

/-! ## A straight chain -/

/-- The header number `n` of a chain without forks; its hash is `n + 1`. -/
def straightHeader (n : ℕ) : SealedHeader :=
  header (BitVec.ofNat 256 (n + 1)) (BitVec.ofNat 256 n) n

/-- The block number `n` of the straight chain. -/
def straightBlock (n : ℕ) : Block := ⟨straightHeader n, []⟩

/-- The hashes of the straight chain. -/
def straight : Preimage :=
  fun hash => if hash = 0 then none else some (straightHeader (hash.toNat - 1))

theorem straight_keyed (hash : B256) (header : SealedHeader) (h : straight hash = some header) :
    header.hash = hash := by
  unfold straight at h
  split at h
  · cases h
  · next hne =>
      cases h
      have hpos : hash.toNat ≠ 0 := fun hzero => hne (BitVec.eq_of_toNat_eq hzero)
      apply BitVec.eq_of_toNat_eq
      show (BitVec.ofNat 256 (hash.toNat - 1 + 1)).toNat = hash.toNat
      rw [BitVec.toNat_ofNat, Nat.sub_add_cancel (Nat.pos_of_ne_zero hpos)]
      exact Nat.mod_eq_of_lt hash.isLt

theorem straight_conforms {n : ℕ} (hn : n + 1 < 2 ^ 256) :
    (straightHeader n).Conforms straight := by
  have htoNat : (BitVec.ofNat 256 (n + 1)).toNat = n + 1 := by
    rw [BitVec.toNat_ofNat, Nat.mod_eq_of_lt hn]
  show straight (BitVec.ofNat 256 (n + 1)) = _
  unfold straight
  rw [if_neg, htoNat, Nat.add_sub_cancel]
  intro hzero
  rw [hzero] at htoNat
  simp at htoNat

/-- The `k` headers below number `n` of the straight chain, falling. -/
def straightAncestors : ℕ → ℕ → List SealedHeader
  | _, 0 => []
  | 0, _ + 1 => []
  | n + 1, k + 1 => straightHeader n :: straightAncestors n k

theorem straightAncestors_linked (n k : ℕ) :
    HashLinked (straightHeader n) (straightAncestors n k) := by
  induction k generalizing n with
  | zero =>
      cases n <;> exact .last _
  | succ k ih =>
      cases n with
      | zero => exact .last _
      | succ n => exact .cons rfl rfl (ih n)

theorem straightAncestors_lt {n k : ℕ} {header : SealedHeader}
    (h : header ∈ straightAncestors n k) : ∃ m, m < n ∧ header = straightHeader m := by
  induction k generalizing n with
  | zero => cases n <;> cases h
  | succ k ih =>
      cases n with
      | zero => cases h
      | succ n =>
          rcases List.mem_cons.mp h with rfl | hmem
          · exact ⟨n, Nat.lt_succ_self n, rfl⟩
          · obtain ⟨m, hlt, heq⟩ := ih hmem
            exact ⟨m, Nat.lt_succ_of_lt hlt, heq⟩

/-- The feed of the straight chain, with all proofs. -/
def straightFeed : Feed externals := feed straight straight_keyed Set.univ

theorem straightFeed_finalized {n k : ℕ} (hn : n + 2 < 2 ^ 256) :
    (straightBlock (n + 1), straightAncestors (n + 1) (k + 1)) ∈ straightFeed.finalized := by
  refine ⟨straight_conforms hn, fun header hmem => ?_, List.cons_ne_nil _ _,
    straightAncestors_linked (n + 1) (k + 1)⟩
  obtain ⟨m, hlt, rfl⟩ := straightAncestors_lt hmem
  exact straight_conforms (by omega)

end SmallWorld

/-! ## Replaying a trace -/

namespace ConsensusEngine

variable {X : Externals}

/-- Process the events of a trace; `none` if one of them cannot be processed. -/
def replay (σ : SetOrder B256) :
    List (Processed X.Proof) → ConsensusEngine X → Option (ConsensusEngine X)
  | [], engine => some engine
  | .message message :: trace, engine =>
      if engine.parkedPayload = none then replay σ trace (engine.onEngineMessage σ message)
      else none
  | .outcome data :: trace, engine =>
      match engine.onDownloadOutcome σ data with
      | (.ok (), engine) => replay σ trace engine
      | (.error _, _) => none
  | .timeout parked :: trace, engine =>
      if engine.parkedPayload = some parked then replay σ trace (engine.onParkedTimeout parked)
      else none

/-- A trace that can be processed starts with a step. -/
theorem replay_cons {σ : SetOrder B256} {event : Processed X.Proof}
    {trace : List (Processed X.Proof)} {engine engine' : ConsensusEngine X}
    (h : replay σ (event :: trace) engine = some engine') :
    ∃ next, Step engine event next ∧ replay σ trace next = some engine' := by
  cases event with
  | message message =>
      simp only [replay] at h
      split at h
      · next hunparked => exact ⟨_, .message σ message hunparked, h⟩
      · cases h
  | outcome data =>
      simp only [replay] at h
      split at h
      · next next heq => exact ⟨next, .outcome σ data heq, h⟩
      · cases h
  | timeout parked =>
      simp only [replay] at h
      split at h
      · next hparked => exact ⟨_, .timeout parked hparked, h⟩
      · cases h

/-- The replay of a trace continues a run. -/
private theorem Run.replay_from {meets : ConsensusEngine X → Processed X.Proof → Prop}
    {σ : SetOrder B256} {start : ConsensusEngine X} (trace' : List (Processed X.Proof)) :
    ∀ {trace engine engine'}, Run meets start trace engine →
      (∀ engine, ∀ event ∈ trace', meets engine event) →
      replay σ trace' engine = some engine' → Run meets start (trace ++ trace') engine' := by
  induction trace' with
  | nil =>
      intro trace engine engine' run _ h
      cases h
      rwa [List.append_nil]
  | cons event trace' ih =>
      intro trace engine engine' run hmeets h
      have hmet := hmeets engine event List.mem_cons_self
      have hrest := fun engine event hmem => hmeets engine event (List.mem_cons_of_mem _ hmem)
      obtain ⟨next, step, h⟩ := replay_cons h
      rw [List.append_cons]
      exact ih (run.step hmet step) hrest h

/-- **A replayed trace is a run.** -/
theorem Run.of_replay {meets : ConsensusEngine X → Processed X.Proof → Prop}
    {σ : SetOrder B256} {start engine : ConsensusEngine X} {trace : List (Processed X.Proof)}
    (hmeets : ∀ engine, ∀ event ∈ trace, meets engine event)
    (h : replay σ trace start = some engine) : Run meets start trace engine :=
  Run.replay_from trace .start hmeets h

/-! ### Rounds of polling -/

/-- What the outside offers to a round in which nothing times out. -/
structure Turn (P : Type) where
  blocks : List Block
  proofs : List (B256 × P)
  message : Option BeaconEngineMessage

/-- What the requests in flight are answered with. -/
def Turn.answers {P : Type} (turn : Turn P) : DownloadAnswers P where
  fullBlock hash := turn.blocks.find? fun block => block.hash = hash
  proof hash := (turn.proofs.find? fun entry => entry.1 = hash).map Prod.snd
  finalizedBlock _ := none

theorem Turn.answers_matching {P : Type} (turn : Turn P) : turn.answers.Matching := by
  intro hash block h
  simpa using List.find?_some h

/-- One turn, with a check of what is processed; `none` if the check fails. -/
def takeTurn (check : ConsensusEngine X → Processed X.Proof → Bool) (σ : SetOrder B256)
    (turn : Turn X.Proof) (engine : ConsensusEngine X) : Option (ConsensusEngine X) :=
  match engine.downloader.poll turn.answers with
  | (some data, downloader) =>
      if check { engine with downloader } (.outcome data) then
        match { engine with downloader }.onDownloadOutcome σ data with
        | (.ok (), engine) => some engine
        | (.error _, _) => none
      else none
  | (none, downloader) =>
      match turn.message with
      | none => some { engine with downloader }
      | some message =>
          if engine.parkedPayload = none ∧ check { engine with downloader } (.message message) then
            some ({ engine with downloader }.onEngineMessage σ message)
          else none

/-- One turn after the other. -/
def takeTurns (check : ConsensusEngine X → Processed X.Proof → Bool) (σ : SetOrder B256)
    (turns : List (Turn X.Proof)) (engine : ConsensusEngine X) : Option (ConsensusEngine X) :=
  turns.foldlM (fun engine turn => takeTurn check σ turn engine) engine

/-- A turn continues a session. -/
private theorem Session.takeTurn
    {meets : SetOrder B256 → ConsensusEngine X → Processed X.Proof → Prop}
    {check : ConsensusEngine X → Processed X.Proof → Bool} {σ : SetOrder B256}
    (hcheck : ∀ engine event, check engine event = true → meets σ engine event)
    {start engine engine' : ConsensusEngine X} {trace : List (Processed X.Proof)}
    {turn : Turn X.Proof} (session : Session meets start trace engine)
    (h : ConsensusEngine.takeTurn check σ turn engine = some engine') :
    ∃ trace', Session meets start trace' engine' := by
  unfold ConsensusEngine.takeTurn at h
  split at h
  · next data downloader polled =>
      split at h
      · next hmet =>
          split at h
          · next handled =>
              cases h
              exact ⟨_, session.outcome turn.answers turn.answers_matching polled σ
                (hcheck _ _ hmet) handled⟩
          · cases h
      · cases h
  · next downloader polled =>
      have hidle := session.idle turn.answers turn.answers_matching polled
      split at h
      · cases h
        exact ⟨_, hidle⟩
      · next message _ =>
          split at h
          · next hmet =>
              cases h
              exact ⟨_, hidle.message σ message hmet.1 (hcheck _ _ hmet.2)⟩
          · cases h

/-- **Turns are a session.** -/
theorem Session.of_turns
    {meets : SetOrder B256 → ConsensusEngine X → Processed X.Proof → Prop}
    {check : ConsensusEngine X → Processed X.Proof → Bool} {σ : SetOrder B256}
    (hcheck : ∀ engine event, check engine event = true → meets σ engine event)
    {turns : List (Turn X.Proof)} {start engine : ConsensusEngine X}
    (h : takeTurns check σ turns start = some engine) :
    ∃ trace, Session meets start trace engine := by
  have hfrom : ∀ {turns trace} {engine₁ : ConsensusEngine X}, Session meets start trace engine₁ →
      takeTurns check σ turns engine₁ = some engine →
        ∃ trace, Session meets start trace engine := by
    intro turns
    induction turns with
    | nil =>
        intro trace engine₁ session h
        cases h
        exact ⟨trace, session⟩
    | cons turn turns ih =>
        intro trace engine₁ session h
        obtain ⟨engine₂, hturn, hturns⟩ := Option.bind_eq_some_iff.mp h
        obtain ⟨trace', session'⟩ := session.takeTurn hcheck hturn
        exact ih session' hturns
  exact hfrom .start h

end ConsensusEngine

end ZkRess
