import ZkRess.Properties.StateRoots
import ZkRess.Properties.WitnessReads

/-!
# Accepted blocks and complete states

A block that the verifier accepts, with whatever proof a peer sent, is to lead from
the complete parent state to a state with the block's root.  This is so if the
execution over the complete state reads nothing that the proof hides; then it is so
exactly if the update it makes loses nothing (`soundlyVerified_iff`).

The proof is the peer's choice.  With an account withheld, the execution sees no
account, and a block whose root fits that execution is accepted
(`not_soundlyVerified_of_hidden`).
-/

namespace ZkRess

open Foundation

namespace VerifierExternals

variable (X : VerifierExternals) {P : Type}

/-- Execute a block over a complete state. -/
def executeOver (codes : B256 → Option X.Bytecode) (S : CompleteState) (provider : ChainState P)
    (block : Block) : Except BlockExecutionError X.BlockExecutionOutput :=
  X.executeWith (S.answer X.toEvmExternals codes provider block.parentNumHash) block

/-- The block leads from the complete state to one with its state root. -/
def SoundlyVerified (codes : B256 → Option X.Bytecode) (S : CompleteState)
    (provider : ChainState P) (block : Block) : Prop :=
  ∃ output, X.executeOver codes S provider block = .ok output ∧
    (S.apply X.keccakEmpty (X.fromBundleState output)).stateRoot X.toTrieExternals
      = block.stateRoot

/-- The state has nothing for the query that the trie hides. -/
def NothingHidden (trie : X.StateTrie) (S : CompleteState) : DatabaseQuery → Prop
  | .basic address =>
      X.ShowsAccount trie (X.hashedAddress address) ∨
        S.accounts.get (X.hashedAddress address) = none
  | .storage address slot =>
      X.ShowsSlot trie (X.hashedAddress address) (X.hashedSlot slot) ∨
        S.slotValue X.toEvmExternals address slot = 0
  | .codeByHash _ => True
  | .blockHash _ => True

/-- Nothing hidden is read by the execution over the complete state. -/
def ReadsNothingHidden (codes : B256 → Option X.Bytecode) (trie : X.StateTrie)
    (S : CompleteState) (provider : ChainState P) (block : Block) : Prop :=
  ∀ query ∈ (X.executeBlock block).asked
      (S.answer X.toEvmExternals codes provider block.parentNumHash),
    X.NothingHidden trie S query

variable {X} {codes : B256 → Option X.Bytecode} {trie : X.StateTrie} {S : CompleteState}
  {provider : ChainState P} {block : Block}

/-- An answer of the witness database that hides nothing is the state's answer. -/
theorem answer_of_nothingHidden (hlawful : X.Lawful) {db : WitnessDatabase X.toEvmExternals P}
    (hreveals : X.Reveals db.trie S) {bytecodes : List Bytes}
    (hbytecodes : db.bytecodes = X.hashBytecodes bytecodes)
    (hcodes : ∀ bytes ∈ bytecodes, codes (X.hashSlow (X.newRaw bytes)) = some (X.newRaw bytes))
    {query : DatabaseQuery} (hquery : X.NothingHidden db.trie S query)
    {a : query.Answer X.Bytecode} (hok : db.answer query = .ok a) :
    S.answer X.toEvmExternals codes db.provider db.parent query = .ok a := by
  cases query with
  | basic address =>
      exact congrArg Except.ok
        ((WitnessDatabase.readsAccount_iff hlawful hreveals address).mpr hquery a hok)
  | storage address slot =>
      exact congrArg Except.ok
        ((WitnessDatabase.readsSlot_iff hlawful hreveals address slot).mpr hquery a hok)
  | codeByHash codeHash =>
      have hcode : codes codeHash = some a := WitnessDatabase.codeByHash_ok hbytecodes hcodes hok
      show CompleteState.codeByHash codes codeHash = .ok a
      unfold CompleteState.codeByHash
      rw [hcode]
  | blockHash number => exact hok

/-- **Soundness of stateless verification**: if the execution over the complete state
reads nothing hidden, an accepted block is soundly verified exactly if its update loses
nothing. -/
theorem soundlyVerified_iff (hlawful : X.Lawful) {preimage : TrieExternals.TriePreimage}
    (hlinked : X.RevealsLinked preimage) (hS : S.Conforms X.toTrieExternals preimage)
    {parent : SealedHeader} (hparent : S.stateRoot X.toTrieExternals = parent.stateRoot)
    {proof : ExecutionStateWitness}
    (hcodes : ∀ bytes ∈ proof.bytecodes,
      codes (X.hashSlow (X.newRaw bytes)) = some (X.newRaw bytes))
    (htrie : X.revealWitness X.new parent.stateRoot (X.stateWitness proof.state) = .ok trie)
    (hupdated : ∀ output, X.executeOver codes S provider block = .ok output →
      (S.apply X.keccakEmpty (X.fromBundleState output)).Conforms X.toTrieExternals preimage ∧
        (X.computedState trie S (X.fromBundleState output)).Conforms X.toTrieExternals preimage)
    {schedule : List X.StorageResult → List X.StorageResult}
    (hschedule : ∀ results, (schedule results).Perm results)
    (hreads : X.ReadsNothingHidden codes trie S provider block)
    (hok : X.verify schedule provider block parent proof = .ok ()) :
    X.SoundlyVerified codes S provider block ↔
      ∀ output, X.executeOver codes S provider block = .ok output →
        X.LosesNothing trie S (X.fromBundleState output) := by
  obtain ⟨-, trie', output, htrie', hexecute, hroot⟩ := verify_ok hok
  obtain rfl : trie = trie' := Except.ok.inj (htrie.symm.trans htrie')
  have hreveals : X.Reveals trie S := hlinked _ _ _ htrie S hparent hS
  have hover : X.executeOver codes S provider block = .ok output :=
    executeWith_eq_of_answers (fun query hasked a ha => by
      have hshown : X.Reveals
          (⟨provider, block.parentNumHash, trie, X.hashBytecodes proof.bytecodes⟩ :
            WitnessDatabase X.toEvmExternals P).trie S := hreveals
      exact answer_of_nothingHidden hlawful hshown rfl hcodes (hreads query hasked) ha) hexecute
  obtain ⟨hafter, hcomputed⟩ := hupdated output hover
  have hiff :
      block.stateRoot = (S.apply X.keccakEmpty (X.fromBundleState output)).stateRoot _ ↔ _ :=
    ⟨CompleteState.eq_of_stateRoot_eq hlawful hcomputed hafter ∘
        (TrieExternals.calculateStateRoot_spec hlawful hcomputed hreveals hschedule
          hroot).symm.trans,
      fun heq => (TrieExternals.calculateStateRoot_spec hlawful hcomputed hreveals hschedule
        hroot).trans (congrArg _ heq)⟩
  rw [TrieExternals.computedState_eq_apply_iff] at hiff
  constructor
  · rintro ⟨output', hover', hsame⟩
    intro output'' hover''
    obtain rfl : output = output' := Except.ok.inj (hover.symm.trans hover')
    obtain rfl : output = output'' := Except.ok.inj (hover.symm.trans hover'')
    exact hiff.mp hsame.symm
  · intro hnothing
    exact ⟨output, hover, (hiff.mpr (hnothing output hover)).symm⟩

end VerifierExternals

namespace SmallTries

/-- A block that changes account 1, if there is one. -/
def touchAccount (_ : Block) : Query DatabaseQuery (DatabaseQuery.Answer Bytes)
    (Except BlockExecutionError HashedPostState) :=
  .ask (.basic 1) fun info =>
    match info with
    | none => .done (.ok ⟨∅, ∅⟩)
    | some _ =>
        .done (.ok ⟨(∅ : FiniteMap B256 (Option Account)).insert address (some ⟨2, 0, none⟩), ∅⟩)

/-- The account tries before and after the change. -/
def touchedTries : List (FiniteMap B256 Bytes) :=
  ∅ :: [1, 2].map fun nonce =>
    (∅ : FiniteMap B256 Bytes).insert address (encodeTrieAccount ⟨nonce, 0, 0, 0⟩)

def touchExternals : VerifierExternals := externals touchedTries touchAccount

/-- A header on the parent with account 1. -/
def touchParent : SealedHeader := ⟨⟨0, 0, 1, 0⟩, 1⟩

def touchBlock (stateRoot : B256) : Block := ⟨⟨⟨1, 1, stateRoot, 0⟩, 2⟩, []⟩

/-- The change of account 1. -/
def touched : HashedPostState :=
  ⟨(∅ : FiniteMap B256 (Option Account)).insert address (some ⟨2, 0, none⟩), ∅⟩

theorem touch_conforms (nonce : ℕ) (hnonce : nonce = 1 ∨ nonce = 2) :
    (oneAccount nonce .empty).Conforms touchExternals.toTrieExternals (preimage touchedTries) := by
  rcases hnonce with rfl | rfl
  · exact oneAccount_conforms (by decide +kernel) (by decide +kernel) (by decide +kernel)
  · exact oneAccount_conforms (by decide +kernel) (by decide +kernel) (by decide +kernel)

/-- The database of the state with account 1. -/
theorem answer_oneAccount (parent : BlockNumHash) :
    (oneAccount 1 .empty).answer touchExternals.toEvmExternals (fun _ => none)
      (.empty : ChainState Unit) parent (.basic 1) = .ok (some ⟨0, 1, 0, none⟩) := by
  have haddress : touchExternals.hashedAddress 1 = address := by decide +kernel
  show Except.ok ((oneAccount 1 .empty).basic touchExternals.toEvmExternals 1) = .ok _
  unfold CompleteState.basic
  rw [haddress, get_oneAccount, if_pos rfl]
  rfl

/-- Over the complete state, the account is changed. -/
theorem executeOver_touch (stateRoot : B256) :
    touchExternals.executeOver (fun _ => none) (oneAccount 1 .empty) (.empty : ChainState Unit)
      (touchBlock stateRoot) = .ok touched :=
  VerifierExternals.executeWith_of_run (Query.run_ask (answer_oneAccount _))

theorem apply_touched :
    (oneAccount 1 .empty).apply touchExternals.keccakEmpty touched = oneAccount 2 .empty :=
  congrArg CompleteState.mk (by decide +kernel)

/-- The proof with the root and the account. -/
def revealingProof : ExecutionStateWitness :=
  ⟨[rootNode 1, leafNode address (encodeTrieAccount ⟨1, 0, 0, 0⟩)], []⟩

/-- The execution over the complete state asks for account 1 only. -/
theorem asked_touch (stateRoot : B256) :
    (touchExternals.executeBlock (touchBlock stateRoot)).asked
      ((oneAccount 1 .empty).answer touchExternals.toEvmExternals (fun _ => none)
        (.empty : ChainState Unit) (touchBlock stateRoot).parentNumHash) = [.basic 1] :=
  (Query.asked_ask (answer_oneAccount _)).trans rfl

/-- With the account in the proof, the change is verified. -/
theorem soundlyVerified_of_revealed :
    touchExternals.SoundlyVerified (fun _ => none) (oneAccount 1 .empty) (.empty : ChainState Unit)
      (touchBlock 2) := by
  have hok : (touchExternals.verify id (.empty : ChainState Unit) (touchBlock 2) touchParent
      revealingProof).toOption = some () := by
    decide +kernel
  have hshows : (touchExternals.revealWitness touchExternals.new touchParent.stateRoot
      (touchExternals.stateWitness revealingProof.state)).toOption.any (fun trie =>
        (touchExternals.sparseTrie.shows (touchExternals.accountTrie trie) address).isSome) := by
    decide +kernel
  obtain ⟨trie, htrie, hshown⟩ := (Option.any_eq_true _ _).mp hshows
  have hnothing : ∀ output, touchExternals.executeOver (fun _ => none) (oneAccount 1 .empty)
      (.empty : ChainState Unit) (touchBlock 2) = .ok output →
        touchExternals.LosesNothing trie (oneAccount 1 .empty)
          (touchExternals.fromBundleState output) := by
    intro output hover
    obtain rfl : touched = output := Except.ok.inj ((executeOver_touch 2).symm.trans hover)
    exact ⟨fun _ _ hget => (nomatch hget), fun _ _ hget => (nomatch hget)⟩
  have hreads : touchExternals.ReadsNothingHidden (fun _ => none) trie (oneAccount 1 .empty)
      (.empty : ChainState Unit) (touchBlock 2) := by
    intro query hasked
    have haddress : touchExternals.hashedAddress 1 = address := by decide +kernel
    rw [asked_touch, List.mem_singleton] at hasked
    rw [hasked]
    left
    rw [haddress]
    exact Option.isSome_iff_ne_none.mp hshown
  refine (VerifierExternals.soundlyVerified_iff externals_lawful externals_revealsLinked
    (touch_conforms 1 (.inl rfl)) (by decide +kernel) (List.forall_mem_nil _)
    (ok_of_toOption htrie) (fun output hover => ?_) (fun _ => List.Perm.refl _) hreads
    (ok_of_toOption hok)).mpr hnothing
  have hcomputed := TrieExternals.computedState_eq_apply_iff.mpr (hnothing output hover)
  obtain rfl : touched = output := Except.ok.inj ((executeOver_touch 2).symm.trans hover)
  have hupdated := touch_conforms 2 (.inr rfl)
  rw [← apply_touched] at hupdated
  exact ⟨hupdated, hcomputed ▸ hupdated⟩

/-- With the account withheld, a block that leaves it unchanged is accepted. -/
theorem not_soundlyVerified_of_hidden :
    ¬∀ (X : VerifierExternals) (preimage : TrieExternals.TriePreimage)
      (codes : B256 → Option X.Bytecode) (S : CompleteState)
      (schedule : List X.StorageResult → List X.StorageResult) (provider : ChainState Unit)
      (block : Block) (parent : SealedHeader) (proof : ExecutionStateWitness), X.Lawful →
        X.RevealsLinked preimage → S.Conforms X.toTrieExternals preimage →
        S.stateRoot X.toTrieExternals = parent.stateRoot →
        (∀ bytes ∈ proof.bytecodes,
          codes (X.hashSlow (X.newRaw bytes)) = some (X.newRaw bytes)) →
        (∀ results, (schedule results).Perm results) →
        X.verify schedule provider block parent proof = .ok () →
          X.SoundlyVerified codes S provider block := by
  intro hclaim
  have hok : (touchExternals.verify id (.empty : ChainState Unit) (touchBlock 1) touchParent
      ⟨[rootNode 1], []⟩).toOption = some () := by
    decide +kernel
  obtain ⟨output, hover, hroot⟩ := hclaim touchExternals (preimage touchedTries) (fun _ => none)
    (oneAccount 1 .empty) id .empty (touchBlock 1) touchParent ⟨[rootNode 1], []⟩ externals_lawful
    externals_revealsLinked (touch_conforms 1 (.inl rfl)) (by decide +kernel)
    (List.forall_mem_nil _) (fun _ => List.Perm.refl _) (ok_of_toOption hok)
  obtain rfl : touched = output := Except.ok.inj ((executeOver_touch 1).symm.trans hover)
  have hsame : ((oneAccount 1 .empty).apply touchExternals.keccakEmpty touched).stateRoot
      touchExternals.toTrieExternals = 1 := hroot
  rw [apply_touched] at hsame
  exact absurd hsame (by decide +kernel)

end SmallTries

end ZkRess
