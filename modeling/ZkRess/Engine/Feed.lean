import ZkRess.Engine.BufferTraversal
import ZkRess.Engine.ConsensusEngine
import ZkRess.Engine.TreeCases
import ZkRess.Foundation.ParentGraph

/-!
# Runs of the engine, and what the outside delivers in them

A `Feed` is everything the outside may deliver in a run: blocks, proofs filed
under the hash they are requested for, and finalized blocks with their ancestor
headers.  All of it is sealed with one hash function, the feed's `preimage`, so
two delivered blocks with one hash have one header.

`Run` is the engine processing messages, download outcomes and timeouts in any
order that `poll` allows; `Run.of_poll` says that it is what polling does.  A
run carries its trace and demands a condition of every step, so that a result
about restricted runs states its restriction at the steps where it matters.
-/

namespace ZkRess

open Foundation

/-! ## Deliveries -/

/-- What may be delivered in a run. -/
structure Feed (X : Externals) where
  /-- The header each hash stands for. -/
  preimage : Preimage
  preimage_keyed : ∀ hash header, preimage hash = some header → header.hash = hash
  /-- The blocks of payloads and full-block downloads. -/
  blocks : Set Block
  /-- The proofs delivered for a hash. -/
  proofs : B256 → Set X.Proof
  /-- The finalized blocks, with their ancestors. -/
  finalized : Set (Block × List SealedHeader)
  /-- The fork-choice states announced. -/
  states : Set ForkchoiceState
  blocks_conform : ∀ block ∈ blocks, block.toSealedHeader.Conforms preimage
  finalized_conform : ∀ pair ∈ finalized, pair.1.toSealedHeader.Conforms preimage
  ancestors_conform : ∀ pair ∈ finalized, ∀ header ∈ pair.2, header.Conforms preimage

variable {X : Externals}

namespace Feed

/-- Walking down from a hash through known headers reaches the other hash. -/
def Descends (feed : Feed X) (head check : B256) : Prop :=
  ∃ headers, Path feed.preimage (fun header => header.parentHash) head headers check

theorem Descends.refl (feed : Feed X) (hash : B256) : feed.Descends hash hash := ⟨[], .nil hash⟩

theorem Descends.parent {feed : Feed X} {block : Block} (h : block ∈ feed.blocks) :
    feed.Descends block.hash block.parentHash :=
  ⟨[block.toSealedHeader], .cons (feed.blocks_conform block h) (.nil _)⟩

theorem Descends.trans {feed : Feed X} {head check lower : B256} (h : feed.Descends head check)
    (h' : feed.Descends check lower) : feed.Descends head lower := by
  obtain ⟨headers, hpath⟩ := h
  obtain ⟨headers', hpath'⟩ := h'
  exact ⟨headers ++ headers', hpath.append hpath'⟩

/-- No header is its own ancestor: a hash is computed from the parent's. -/
def Acyclic (feed : Feed X) : Prop := NoReturn feed.preimage fun header => header.parentHash

/-- The event brings what the feed may deliver.  A well-formed payload has the
hash it claims. -/
def Provides (feed : Feed X) : ConsensusEngine.Processed X.Proof → Prop
  | .message (.newPayload payload _) =>
      ∀ block, X.ensureWellFormedPayload payload = .ok block →
        block ∈ feed.blocks ∧ block.hash = payload.blockHash
  | .message (.forkchoiceUpdated state _ _ _) => state ∈ feed.states
  | .outcome (.fullBlock block) => block ∈ feed.blocks
  | .outcome (.proof blockHash proof) => proof ∈ feed.proofs blockHash
  | .outcome (.finalizedBlock block ancestors) => (block, ancestors) ∈ feed.finalized
  | .timeout _ => True

end Feed

/-! ## The buffer of a run -/

/-- The buffer is in order and holds delivered blocks and proofs only. -/
structure FedBy (feed : Feed X) (buffer : BlockBuffer X.Proof) : Prop where
  wellFormed : buffer.WellFormed
  blocks : ∀ hash block, buffer.blocks.get hash = some block → block ∈ feed.blocks
  proofs : ∀ hash proof, buffer.proofs.get hash = some proof → proof ∈ feed.proofs hash

/-- The same for a buffer in which a proof has just been filed: its hash is the
only one the child index may miss. -/
structure FedExcept (feed : Feed X) (hash : B256) (buffer : BlockBuffer X.Proof) : Prop where
  agrees : buffer.Agrees {hash} ∅
  blocks : ∀ hash block, buffer.blocks.get hash = some block → block ∈ feed.blocks
  proofs : ∀ hash proof, buffer.proofs.get hash = some proof → proof ∈ feed.proofs hash

namespace FedExcept

variable {feed : Feed X} {buffer : BlockBuffer X.Proof} {hash : B256}

/-- A delivered block agrees with a buffered one of the same hash. -/
theorem admits (h : FedExcept feed hash buffer) {block : Block} (hblock : block ∈ feed.blocks) :
    buffer.Admits block := by
  intro old hold
  have hconf := feed.blocks_conform old (h.blocks _ _ hold)
  have hconf' := feed.blocks_conform block hblock
  unfold SealedHeader.Conforms at hconf hconf'
  rw [BlockBuffer.hash_of_get hold, hconf'] at hconf
  exact (Option.some.inj hconf).symm

/-- Inserting the block of the hash lists it. -/
theorem insertBlock {block : Block} (h : FedExcept feed block.hash buffer)
    (hblock : block ∈ feed.blocks) : FedBy feed (buffer.insertBlock block) := by
  obtain ⟨evicted, -, -, -, hgetBlock, hgetProof⟩ := BlockBuffer.get_insertBlock h.agrees block
  exact
    { wellFormed := (h.agrees.insertBlock (h.admits hblock)).settle
        (fun hash hmem _ => absurd hmem.1 hmem.2) fun _ hmem _ _ => hmem.1
      blocks := by
        intro hash block' hget
        rw [hgetBlock] at hget
        split at hget
        · cases hget
          exact hblock
        · split at hget
          · cases hget
          · exact h.blocks hash block' hget
      proofs := by
        intro hash proof hget
        rw [hgetProof] at hget
        split at hget
        · cases hget
        · exact h.proofs hash proof hget }

/-- Without its block and proof the hash needs no exception. -/
theorem drop (h : FedExcept feed hash buffer) {block : Block} {proof : X.Proof}
    (hready : buffer.Ready hash block proof) : FedBy feed (buffer.drop hash block) where
  wellFormed := (h.agrees.drop hready.1).settle (fun _ hmem _ => absurd hmem.1 hmem.2)
    fun _ hmem _ _ => hmem.1
  blocks hash' block' hget := h.blocks hash' block' ((BlockBuffer.drop_sub _ _ _).blocks _ _ hget)
  proofs hash' proof' hget := h.proofs hash' proof' ((BlockBuffer.drop_sub _ _ _).proofs _ _ hget)

/-- A hash that lacks a part needs no exception either. -/
theorem settle (h : FedExcept feed hash buffer) (hmissing : ¬buffer.Removable hash) :
    FedBy feed buffer where
  wellFormed := h.agrees.settle (fun _ hmem hrem => absurd (hmem ▸ hrem) hmissing)
    fun _ hmem _ _ => hmem
  blocks := h.blocks
  proofs := h.proofs

end FedExcept

namespace FedBy

variable {feed : Feed X} {buffer buffer' : BlockBuffer X.Proof}

theorem new (feed : Feed X) : FedBy feed (.new 256) where
  wellFormed := BlockBuffer.wellFormed_new (by decide)
  blocks hash block h := by simp [BlockBuffer.new] at h
  proofs hash proof h := by simp [BlockBuffer.new] at h

theorem of_sub (h : FedBy feed buffer) (hwf : buffer'.WellFormed)
    (hsub : BlockBuffer.Sub buffer' buffer) : FedBy feed buffer' where
  wellFormed := hwf
  blocks hash block hget := h.blocks hash block (hsub.blocks hash block hget)
  proofs hash proof hget := h.proofs hash proof (hsub.proofs hash proof hget)

theorem except (h : FedBy feed buffer) (hash : B256) : FedExcept feed hash buffer where
  agrees := h.wellFormed.settle nofun nofun
  blocks := h.blocks
  proofs := h.proofs

theorem insertProof (h : FedBy feed buffer) {hash : B256} {proof : X.Proof}
    (hproof : proof ∈ feed.proofs hash) :
    FedExcept feed hash (buffer.insertProof hash proof) where
  agrees := (h.wellFormed.insertProof hash proof).settle
    (fun hash hmem _ => hmem.resolve_left (Set.notMem_empty hash)) fun _ hmem _ _ => hmem
  blocks := h.blocks
  proofs hash' proof' hget := by
    simp only [BlockBuffer.insertProof, FiniteMap.get_insert] at hget
    split at hget
    · next heq =>
        cases hget
        rwa [heq]
    · exact h.proofs hash' proof' hget

theorem insertBlock (h : FedBy feed buffer) {block : Block} (hblock : block ∈ feed.blocks) :
    FedBy feed (buffer.insertBlock block) :=
  (h.except block.hash).insertBlock hblock

theorem bufferWith (h : FedBy feed buffer) {block : Block} (hblock : block ∈ feed.blocks)
    {maybeProof : Option X.Proof}
    (hproof : ∀ proof, maybeProof = some proof → proof ∈ feed.proofs block.hash) :
    FedBy feed (EngineTree.bufferWith buffer block maybeProof) := by
  cases maybeProof with
  | none => exact h.insertBlock hblock
  | some proof => exact (h.insertProof (hproof proof rfl)).insertBlock hblock

theorem removeProof (h : FedBy feed buffer) (hash : B256) :
    FedBy feed (buffer.removeProof hash).2 where
  wellFormed := h.wellFormed.removeProof hash
  blocks := h.blocks
  proofs hash' proof hget := by
    simp only [BlockBuffer.removeProof, FiniteMap.get_erase] at hget
    split at hget
    · cases hget
    · exact h.proofs hash' proof hget

/-- The proof taken out for a payload was delivered for its hash. -/
theorem removeProof_fed (h : FedBy feed buffer) {hash : B256} {proof : X.Proof}
    (hproof : (buffer.removeProof hash).1 = some proof) : proof ∈ feed.proofs hash :=
  h.proofs hash proof hproof

/-- What comes out of the buffer was delivered. -/
theorem ready_fed (h : FedBy feed buffer) {hash : B256} {block : Block} {proof : X.Proof}
    (hready : buffer.Ready hash block proof) :
    block ∈ feed.blocks ∧ block.hash = hash ∧ proof ∈ feed.proofs hash :=
  ⟨h.blocks hash block hready.1, BlockBuffer.hash_of_get hready.1, h.proofs hash proof hready.2⟩

/-- A buffered block has the header its hash stands for. -/
theorem preimage_of_get (h : FedBy feed buffer) (hash : B256) (block : Block)
    (hget : buffer.blocks.get hash = some block) :
    feed.preimage hash = some block.toSealedHeader := by
  have hconf := feed.blocks_conform block (h.blocks hash block hget)
  unfold SealedHeader.Conforms at hconf
  rwa [BlockBuffer.hash_of_get hget] at hconf

/-- A walk through the buffer is one through the known headers. -/
theorem path_headers (h : FedBy feed buffer) {head check : B256} {blocks : List Block}
    (hpath : Path buffer.blocks.get (fun block => block.parentHash) head blocks check) :
    Path feed.preimage (fun header => header.parentHash) head
      (blocks.map Block.toSealedHeader) check :=
  hpath.map Block.toSealedHeader h.preimage_of_get fun _ => rfl

theorem path_preimage (h : FedBy feed buffer) {head check : B256} {blocks : List Block}
    (hpath : Path buffer.blocks.get (fun block => block.parentHash) head blocks check) :
    feed.Descends head check :=
  ⟨_, h.path_headers hpath⟩

/-- Buffered blocks make no cycle. -/
theorem noReturn (h : FedBy feed buffer) (hacyclic : feed.Acyclic) :
    NoReturn buffer.blocks.get fun block => block.parentHash :=
  hacyclic.of_map Block.toSealedHeader h.preimage_of_get fun _ => rfl

end FedBy

/-! ## The lowest buffered ancestor -/

namespace BlockBuffer

variable {P : Type} {buffer : BlockBuffer P}

/-- The walk goes through buffered blocks and ends with the last one it meets, unless it is
cut short. -/
theorem lowestFrom_path (blocks : BlocksByHash) (n : ℕ) (block : Block) (hash : B256)
    (h : blocks.get hash = some block) :
    ∃ between, Path blocks.get (fun block => block.parentHash) hash
        (between ++ [lowestFrom blocks n block]) (lowestFrom blocks n block).parentHash ∧
      (blocks.get (lowestFrom blocks n block).parentHash = none ∨ between.length = n) := by
  induction n generalizing block hash with
  | zero => exact ⟨[], .cons h (.nil _), .inr rfl⟩
  | succ n ih =>
      unfold lowestFrom
      match hparent : blocks.get block.parentHash with
      | none => exact ⟨[], .cons h (.nil _), .inl hparent⟩
      | some parent =>
          obtain ⟨between, hpath, hends⟩ := ih parent block.parentHash hparent
          exact ⟨block :: between, .cons h hpath, hends.imp_right (congrArg (· + 1))⟩

/-- **The walk ends**: it meets each buffered block at most once, so after as many rounds as
there are other blocks the next parent is not buffered. -/
theorem lowestFrom_parent {blocks : BlocksByHash}
    (hacyclic : NoReturn blocks.get fun block => block.parentHash) {rounds : ℕ}
    (hrounds : blocks.card ≤ rounds + 1) {hash : B256} {block : Block}
    (h : blocks.get hash = some block) :
    blocks.get (lowestFrom blocks rounds block).parentHash = none := by
  obtain ⟨between, hpath, hends⟩ := lowestFrom_path blocks rounds block hash h
  match hparent : blocks.get (lowestFrom blocks rounds block).parentHash with
  | none => rfl
  | some parent =>
      exfalso
      have hlong : between.length = rounds := hends.resolve_left fun hnone => by
        rw [hparent] at hnone
        cases hnone
      -- else the walk would go on to more blocks than there are
      have hfurther := hpath.snoc hparent
      have hle := KeyedMap.length_le_card (hfurther.nodup_keys blocks.keyed hacyclic) fun k hk => by
        obtain ⟨met, hmet, rfl⟩ := List.mem_map.mp hk
        obtain ⟨k, hfound⟩ := hfurther.found_of_mem hmet
        rw [blocks.keyed k met hfound]
        exact ⟨met, hfound⟩
      simp only [List.length_map, List.length_append, List.length_singleton] at hle
      omega

/-- Walking down from a buffered block through the buffer, its lowest buffered ancestor is the
last block met. -/
theorem lowestAncestor_path {hash : B256} {lowest : Block}
    (h : buffer.lowestAncestor hash = some lowest) :
    ∃ between, Path buffer.blocks.get (fun block => block.parentHash) hash (between ++ [lowest])
      lowest.parentHash := by
  unfold lowestAncestor at h
  obtain ⟨block, hblock, rfl⟩ := Option.map_eq_some_iff.mp h
  obtain ⟨between, hpath, -⟩ := lowestFrom_path buffer.blocks _ block hash hblock
  exact ⟨between, hpath⟩

/-- There the walk ends: the parent of the lowest buffered ancestor is not buffered. -/
theorem lowestAncestor_parent (hacyclic : NoReturn buffer.blocks.get fun block => block.parentHash)
    {hash : B256} {lowest : Block} (h : buffer.lowestAncestor hash = some lowest) :
    buffer.blocks.get lowest.parentHash = none := by
  unfold lowestAncestor at h
  obtain ⟨block, hblock, rfl⟩ := Option.map_eq_some_iff.mp h
  exact lowestFrom_parent hacyclic (Nat.le_succ _) hblock

end BlockBuffer

namespace EngineTree

variable {feed : Feed X} {tree : EngineTree X}

/-- The hash a block is checked under is the block or one of its ancestors. -/
theorem descends_lowestBufferedAncestorOr (h : FedBy feed tree.blockBuffer) (hash : B256) :
    feed.Descends hash (tree.lowestBufferedAncestorOr hash) := by
  unfold lowestBufferedAncestorOr
  cases hlowest : tree.blockBuffer.lowestAncestor hash with
  | none => exact .refl feed hash
  | some lowest =>
      obtain ⟨between, hpath⟩ := BlockBuffer.lowestAncestor_path hlowest
      exact h.path_preimage hpath

theorem descends_payloadCheck (h : FedBy feed tree.blockBuffer) {block : Block}
    (hblock : block ∈ feed.blocks) : feed.Descends block.hash (tree.payloadCheck block) := by
  unfold payloadCheck
  split
  · exact .parent hblock
  · exact descends_lowestBufferedAncestorOr h block.hash

end EngineTree

/-! ## Runs -/

namespace ConsensusEngine

/-- One event is processed. -/
inductive Step : ConsensusEngine X → Processed X.Proof → ConsensusEngine X → Prop
  /-- A message is handled; no payload is parked. -/
  | message {engine} (σ : SetOrder B256) (message : BeaconEngineMessage)
      (unparked : engine.parkedPayload = none) :
      Step engine (.message message) (engine.onEngineMessage σ message)
  /-- A download outcome is handled. -/
  | outcome {engine engine'} (σ : SetOrder B256) (data : DownloadData X.Proof)
      (handled : engine.onDownloadOutcome σ data = (.ok (), engine')) :
      Step engine (.outcome data) engine'
  /-- The parked payload has waited too long. -/
  | timeout {engine} (parked : ParkedPayload) (isParked : engine.parkedPayload = some parked) :
      Step engine (.timeout parked) (engine.onParkedTimeout parked)

/-- The engine processes events from `start` on, each step meeting a condition
on the state before it and the event. -/
inductive Run (meets : ConsensusEngine X → Processed X.Proof → Prop) (start : ConsensusEngine X) :
    List (Processed X.Proof) → ConsensusEngine X → Prop
  | start : Run meets start [] start
  /-- Requests in flight advance. -/
  | polled {trace engine} (run : Run meets start trace engine)
      (downloader : EngineDownloader X.Proof) : Run meets start trace { engine with downloader }
  | step {trace engine event engine'} (run : Run meets start trace engine)
      (met : meets engine event) (step : Step engine event engine') :
      Run meets start (trace ++ [event]) engine'

/-- Rounds of the loop of `poll`, none of which ends with an error. -/
inductive Polls (start : ConsensusEngine X) :
    List (Processed X.Proof) → ConsensusEngine X → Prop
  | start : Polls start [] start
  | round {trace engine} (polls : Polls start trace engine) (input : PollInput X)
      (sound : ∀ fatal, (poll input engine).1 ≠ .failed fatal) :
      Polls start (trace ++ (poll input engine).2.1) (poll input engine).2.2

/-- A condition that holds of every event is no condition. -/
abbrev Any : ConsensusEngine X → Processed X.Proof → Prop := fun _ _ => True

private theorem Run.pollMessage {start engine : ConsensusEngine X}
    {trace : List (Processed X.Proof)} (run : Run Any start trace engine) (input : PollInput X)
    (unparked : engine.parkedPayload = none) :
    Run Any start (trace ++ (ConsensusEngine.pollMessage input engine).2.1)
      (ConsensusEngine.pollMessage input engine).2.2 := by
  unfold ConsensusEngine.pollMessage
  cases input.message with
  | none => simpa using run
  | some message => exact run.step trivial (.message input.order message unparked)

/-- **Polling is a run**: every round handles a download outcome, or else answers
a parked payload whose time is up and takes a message only when none is parked. -/
theorem Run.of_poll {start engine : ConsensusEngine X} {trace : List (Processed X.Proof)}
    (polls : Polls start trace engine) : Run Any start trace engine := by
  induction polls with
  | start => exact .start
  | @round trace engine _ input sound run =>
      obtain ⟨tree, inflight, parkedPayload, responses⟩ := engine
      unfold poll at sound ⊢
      have hpolled := run.polled (inflight.poll input.answers).2
      simp only at sound hpolled ⊢
      generalize inflight.poll input.answers = polled at sound hpolled ⊢
      obtain ⟨outcome, downloader⟩ := polled
      cases outcome with
      | some data =>
          simp only at sound hpolled ⊢
          split
          · next engine' heq => exact hpolled.step trivial (.outcome input.order data heq)
          · next fatal engine' heq =>
              rw [heq] at sound
              exact absurd rfl (sound fatal)
      | none =>
          cases parkedPayload with
          | none => exact hpolled.pollMessage input rfl
          | some parked =>
              simp only
              split
              · have hmessage := (hpolled.step trivial (.timeout parked rfl)).pollMessage input rfl
                rw [List.append_assoc] at hmessage
                exact hmessage
              · simpa using hpolled

/-- The condition of a run may be weakened at the events of its trace. -/
theorem Run.mono {meets meets' : ConsensusEngine X → Processed X.Proof → Prop}
    {start engine : ConsensusEngine X} {trace : List (Processed X.Proof)}
    (run : Run meets start trace engine)
    (himp : ∀ engine, ∀ event ∈ trace, meets engine event → meets' engine event) :
    Run meets' start trace engine := by
  have hlast : ∀ {trace : List (Processed X.Proof)} {event},
      (∀ engine, ∀ event' ∈ trace ++ [event], meets engine event' → meets' engine event') →
        (∀ engine, ∀ event' ∈ trace, meets engine event' → meets' engine event') ∧
          ∀ engine, meets engine event → meets' engine event := fun h =>
    ⟨fun engine event' hmem => h engine event' (List.mem_append_left _ hmem),
      fun engine => h engine _ (List.mem_append_right _ List.mem_cons_self)⟩
  induction run with
  | start => exact .start
  | polled _ downloader ih => exact (ih himp).polled downloader
  | step _ met step ih => exact (ih (hlast himp).1).step ((hlast himp).2 _ met) step

end ConsensusEngine

/-! ## What a run was given -/

open ConsensusEngine

/-- The part of a feed that a trace delivers. -/
def Feed.within (feed : Feed X) (trace : List (Processed X.Proof)) : Feed X where
  preimage := feed.preimage
  preimage_keyed := feed.preimage_keyed
  blocks := {block | block ∈ feed.blocks ∧ (.outcome (.fullBlock block) ∈ trace ∨
    ∃ payload tx, .message (.newPayload payload tx) ∈ trace ∧
      X.ensureWellFormedPayload payload = .ok block)}
  proofs hash := {proof | proof ∈ feed.proofs hash ∧ .outcome (.proof hash proof) ∈ trace}
  finalized := {pair | pair ∈ feed.finalized ∧ .outcome (.finalizedBlock pair.1 pair.2) ∈ trace}
  states := {state | state ∈ feed.states ∧ ∃ payloadAttrs tx version,
    .message (.forkchoiceUpdated state payloadAttrs tx version) ∈ trace}
  blocks_conform block hblock := feed.blocks_conform block hblock.1
  finalized_conform pair hpair := feed.finalized_conform pair hpair.1
  ancestors_conform pair hpair := feed.ancestors_conform pair hpair.1

/-- Every event of a trace is provided by the part of the feed that the trace
delivers. -/
theorem Feed.provides_within {feed : Feed X} {trace : List (Processed X.Proof)}
    {event : Processed X.Proof} (hmem : event ∈ trace) (h : feed.Provides event) :
    (feed.within trace).Provides event := by
  match event, hmem, h with
  | .message (.newPayload payload tx), hmem, h =>
      intro block hformed
      exact ⟨⟨(h block hformed).1, .inr ⟨payload, tx, hmem, hformed⟩⟩, (h block hformed).2⟩
  | .message (.forkchoiceUpdated state payloadAttrs tx version), hmem, h =>
      exact ⟨h, payloadAttrs, tx, version, hmem⟩
  | .outcome (.fullBlock block), hmem, h => exact ⟨h, .inl hmem⟩
  | .outcome (.proof blockHash proof), hmem, h => exact ⟨h, hmem⟩
  | .outcome (.finalizedBlock block ancestors), hmem, h => exact ⟨h, hmem⟩
  | .timeout _, _, _ => trivial

/-- Runs with deliveries of a feed. -/
abbrev FedRun (feed : Feed X) : ConsensusEngine X → List (Processed X.Proof) →
    ConsensusEngine X → Prop :=
  Run fun _ event => feed.Provides event

/-- **A run needs only what it was given.** -/
theorem FedRun.within {feed : Feed X} {start engine : ConsensusEngine X}
    {trace : List (Processed X.Proof)} (run : FedRun feed start trace engine) :
    FedRun (feed.within trace) start trace engine :=
  run.mono fun _ _ hmem => Feed.provides_within hmem

/-- The events of such a run are provided by the feed. -/
theorem FedRun.provides {feed : Feed X} {start engine : ConsensusEngine X}
    {trace : List (Processed X.Proof)} (run : FedRun feed start trace engine) :
    ∀ event ∈ trace, feed.Provides event := by
  induction run with
  | start => exact nofun
  | polled _ _ ih => exact ih
  | step _ met _ ih =>
      intro event hmem
      rcases List.mem_append.mp hmem with hmem | hmem
      · exact ih event hmem
      · exact List.mem_singleton.mp hmem ▸ met

end ZkRess
