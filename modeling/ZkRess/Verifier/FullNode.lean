import ZkRess.Foundation.ParentGraph
import ZkRess.Verifier.ExecutionWitness

/-!
# A full node

What a stateless node stands in for: a node that has every account and every slot, all
code, and all headers, and executes the chain block by block from its genesis state.
`StateAfter` is the state it has after a block, and a block is `Valid` if there is one.

A full node reads block hashes from its chain (`blockHash`), where the stateless node reads
them from what it has stored.
-/

namespace ZkRess

open Foundation

/-- A full node: the code of each hash, the header of each hash, and the state it starts
from. -/
structure FullNode (X : VerifierExternals) where
  codes : B256 → Option X.Bytecode
  preimage : Preimage
  genesis : Block
  genesisState : CompleteState

namespace FullNode

variable {X : VerifierExternals} (node : FullNode X)

/-! ## Execution -/

/-- The hash a number of blocks below. -/
def ancestorBelow : ℕ → B256 → Option B256
  | 0, hash => some hash
  | n + 1, hash =>
      (node.preimage hash).bind fun header => ancestorBelow n header.parentHash

/-- Block hash by number, on the chain below a parent. -/
def blockHash (parent : BlockNumHash) (number : ℕ) : Option B256 :=
  if number ≤ parent.number then node.ancestorBelow (parent.number - number) parent.hash
  else none

/-- The database of the node, at a block on this parent. -/
def answer (S : CompleteState) (parent : BlockNumHash) :
    ∀ query : DatabaseQuery, Except ProviderError (query.Answer X.Bytecode)
  | .basic address => .ok (S.basic X.toEvmExternals address)
  | .storage address slot => .ok (S.slotValue X.toEvmExternals address slot)
  | .codeByHash codeHash => CompleteState.codeByHash (X := X.toEvmExternals) node.codes codeHash
  | .blockHash number =>
      match node.blockHash parent number with
      | some hash => .ok hash
      | none => .error (.stateForNumberNotFound number)

/-- Execute a block over the state of its parent. -/
def execute (S : CompleteState) (block : Block) :
    Except BlockExecutionError X.BlockExecutionOutput :=
  X.executeWith (node.answer S block.parentNumHash) block

/-- The block passes all checks on its parent, over the state `S` of the parent, and leads to
the state `S'`. -/
structure Imports (parent : SealedHeader) (S : CompleteState) (block : Block)
    (S' : CompleteState) : Prop where
  header : X.validateHeader block.toSealedHeader = .ok ()
  body : X.validateBlockPreExecution block = .ok ()
  linked : X.validateHeaderAgainstParent block.toSealedHeader parent = .ok ()
  executes : ∃ output, node.execute S block = .ok output ∧
    X.validateBlockPostExecution block output = .ok () ∧
      S' = S.apply X.keccakEmpty (X.fromBundleState output)
  root : S'.stateRoot X.toTrieExternals = block.stateRoot

/-- **The state after a block**, executed from genesis on. -/
inductive StateAfter : Block → CompleteState → Prop
  | genesis : StateAfter node.genesis node.genesisState
  | imported {parent block : Block} {S S' : CompleteState} (after : StateAfter parent S)
      (child : block.parentHash = parent.hash)
      (conforms : block.toSealedHeader.Conforms node.preimage)
      (imports : node.Imports parent.toSealedHeader S block S') : StateAfter block S'

/-- A block that the node has a state after. -/
def Valid (block : Block) : Prop := ∃ S, node.StateAfter block S

/-- **Well launched**: the genesis block is known, passes the checks that need no parent, and
has the root of the genesis state; and no two states of the node have one root. -/
structure WellLaunched (triePreimage : TrieExternals.TriePreimage) : Prop where
  genesisConforms : node.genesis.toSealedHeader.Conforms node.preimage
  genesisNumber : node.genesis.number = 0
  genesisHeader : X.validateHeader node.genesis.toSealedHeader = .ok ()
  genesisBody : X.validateBlockPreExecution node.genesis = .ok ()
  genesisOrphan : node.preimage node.genesis.parentHash = none
  genesisRoot : node.genesisState.stateRoot X.toTrieExternals = node.genesis.stateRoot
  genesisState : node.genesisState.Conforms X.toTrieExternals triePreimage
  executed : ∀ {parent S block output}, node.StateAfter parent S →
    node.execute S block = .ok output →
      (S.apply X.keccakEmpty (X.fromBundleState output)).Conforms X.toTrieExternals triePreimage

variable {node}

/-! ## Block hashes -/

theorem ancestorBelow_of_walk {k a : B256} {n m : ℕ} {l : List SealedHeader}
    (h : Walk node.preimage (fun header => header.parentHash) (fun header => header.number)
      k n l a m) : node.ancestorBelow l.length k = some a := by
  induction h with
  | nil => rfl
  | cons found _ _ ih =>
      rw [List.length_cons, ancestorBelow, found]
      exact ih

/-- An ancestor is found at its number. -/
theorem blockHash_of_reaches {parent : BlockNumHash} {hash : B256} {number : ℕ}
    (h : Reaches node.preimage (fun header => header.parentHash) (fun header => header.number)
      parent.hash parent.number hash number) : node.blockHash parent number = some hash := by
  obtain ⟨l, hwalk⟩ := h
  have hlength := hwalk.length
  unfold blockHash
  rw [if_pos (by omega), hlength, Nat.add_sub_cancel_left]
  exact ancestorBelow_of_walk hwalk

/-! ## States after blocks -/

section WellLaunched

variable {triePreimage : TrieExternals.TriePreimage} {block : Block} {S : CompleteState}

/-- The state has the root of the header. -/
theorem StateAfter.stateRoot (h : node.StateAfter block S)
    (hlaunched : node.WellLaunched triePreimage) :
    S.stateRoot X.toTrieExternals = block.stateRoot := by
  cases h with
  | genesis => exact hlaunched.genesisRoot
  | imported _ _ _ imports => exact imports.root

theorem StateAfter.conforms (h : node.StateAfter block S)
    (hlaunched : node.WellLaunched triePreimage) :
    S.Conforms X.toTrieExternals triePreimage := by
  cases h with
  | genesis => exact hlaunched.genesisState
  | imported after _ _ imports =>
      obtain ⟨output, hexecute, -, rfl⟩ := imports.executes
      exact hlaunched.executed after hexecute

theorem Valid.conforms (h : node.Valid block) (hlaunched : node.WellLaunched triePreimage) :
    block.toSealedHeader.Conforms node.preimage := by
  obtain ⟨S, hafter⟩ := h
  cases hafter with
  | genesis => exact hlaunched.genesisConforms
  | imported _ _ conforms _ => exact conforms

/-- A valid block passes the checks that need no parent. -/
theorem Valid.checked (h : node.Valid block) (hlaunched : node.WellLaunched triePreimage) :
    X.validateHeader block.toSealedHeader = .ok () ∧
      X.validateBlockPreExecution block = .ok () := by
  obtain ⟨S, hafter⟩ := h
  cases hafter with
  | genesis => exact ⟨hlaunched.genesisHeader, hlaunched.genesisBody⟩
  | imported _ _ _ imports => exact ⟨imports.header, imports.body⟩

/-- A valid block with a known parent was imported on it. -/
theorem Valid.imported (h : node.Valid block) (hlaunched : node.WellLaunched triePreimage)
    {parent : SealedHeader} (hparent : node.preimage block.parentHash = some parent) :
    ∃ (parentBlock : Block) (S S' : CompleteState), parentBlock.toSealedHeader = parent ∧
      block.parentHash = parentBlock.hash ∧ node.StateAfter parentBlock S ∧
        node.Imports parent S block S' := by
  obtain ⟨S, hafter⟩ := h
  cases hafter with
  | genesis => cases hlaunched.genesisOrphan.symm.trans hparent
  | @imported parentBlock _ S₀ _ after child _ imports =>
      have hknown := Valid.conforms ⟨S₀, after⟩ hlaunched
      unfold SealedHeader.Conforms at hknown
      rw [← child, hparent] at hknown
      obtain rfl := Option.some.inj hknown
      exact ⟨parentBlock, S₀, S, rfl, child, after, imports⟩

/-- **Ancestors of a valid block are valid.** -/
theorem Valid.of_path (h : node.Valid block) (hlaunched : node.WellLaunched triePreimage)
    {headers : List SealedHeader} {check : B256} (hknown : node.preimage check ≠ none)
    (hpath : Path node.preimage (fun header => header.parentHash) block.hash headers check) :
    ∃ ancestor, node.Valid ancestor ∧ ancestor.hash = check := by
  obtain ⟨S, hafter⟩ := h
  induction hafter generalizing headers with
  | genesis =>
      cases hpath with
      | nil => exact ⟨_, ⟨_, .genesis⟩, rfl⟩
      | cons found rest =>
          obtain rfl := Option.some.inj (hlaunched.genesisConforms.symm.trans found)
          -- nothing is known below the genesis block
          cases rest with
          | nil => exact absurd hlaunched.genesisOrphan hknown
          | cons found' _ => cases hlaunched.genesisOrphan.symm.trans found'
  | @imported parent block S S' after child conforms imports ih =>
      cases hpath with
      | nil => exact ⟨block, ⟨S', .imported after child conforms imports⟩, rfl⟩
      | cons found rest =>
          obtain rfl := Option.some.inj (conforms.symm.trans found)
          rw [child] at rest
          exact ih rest

end WellLaunched

end FullNode

end ZkRess
