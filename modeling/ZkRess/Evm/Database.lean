import ZkRess.Evm.SparseStateTrie
import ZkRess.Foundation.Query
import ZkRess.Provider.ChainState

/-!
# The witness database and the block executor

The EVM is a program that asks a database: for accounts, storage slots, code, and
block hashes.  `WitnessDatabase` answers from a state trie and from the bytecodes that
came with it; block hashes come from the provider.  A failing query fails the
execution.

`CompleteState.answer` is the database of a complete state.  `readsAccount_iff` and
`readsSlot_iff` compare the two: the lookups of the witness database do not
distinguish a hidden path from an absent entry.
-/

namespace ZkRess

open Foundation

/-- What the EVM is made of: its code type, and the execution of a block as a program
that asks a database. -/
structure EvmExternals extends TrieExternals where
  /-- `Bytecode`, `Bytecode::new_raw` and `Bytecode::hash_slow`. -/
  Bytecode : Type
  newRaw : Bytes → Bytecode
  hashSlow : Bytecode → B256

/-- `AccountInfo`. -/
structure AccountInfo (Bytecode : Type) where
  balance : U256
  nonce : ℕ
  codeHash : B256
  code : Option Bytecode

/-- A query of the EVM. -/
inductive DatabaseQuery
  | basic (address : Address)
  | storage (address : Address) (slot : U256)
  | codeByHash (codeHash : B256)
  | blockHash (number : ℕ)

/-- What a query is answered with. -/
def DatabaseQuery.Answer (Bytecode : Type) : DatabaseQuery → Type
  | .basic _ => Option (AccountInfo Bytecode)
  | .storage _ _ => U256
  | .codeByHash _ => Bytecode
  | .blockHash _ => B256

namespace EvmExternals

variable (X : EvmExternals)

/-- `keccak256` of an address. -/
def hashedAddress (address : Address) : B256 := X.keccak256 (beBytes 20 address.toNat)

/-- `keccak256` of a slot, as 32 bytes. -/
def hashedSlot (slot : U256) : B256 := X.keccak256 (beBytes 32 slot.toNat)

/-- The bytecodes of a proof, by their hashes. -/
def hashBytecodes (bytecodes : List Bytes) : FiniteMap B256 X.Bytecode :=
  bytecodes.foldl (fun map bytes => map.insert (X.hashSlow (X.newRaw bytes)) (X.newRaw bytes)) ∅

variable {X}

/-- Each bytecode is under its own hash. -/
theorem get_hashBytecodes {bytecodes : List Bytes} {codeHash : B256} {code : X.Bytecode}
    (hget : (X.hashBytecodes bytecodes).get codeHash = some code) :
    ∃ bytes ∈ bytecodes, code = X.newRaw bytes ∧ codeHash = X.hashSlow (X.newRaw bytes) := by
  unfold hashBytecodes at hget
  induction bytecodes using List.reverseRecOn with
  | nil => cases hget
  | append_singleton bytecodes bytes ih =>
      rw [List.foldl_append, List.foldl_cons, List.foldl_nil, FiniteMap.get_insert] at hget
      split at hget
      · next heq =>
        exact ⟨bytes, List.mem_append_right _ List.mem_cons_self, (Option.some.inj hget).symm, heq⟩
      · obtain ⟨bytes', hmem, hcode, hhash⟩ := ih hget
        exact ⟨bytes', List.mem_append_left _ hmem, hcode, hhash⟩

end EvmExternals

/-- The error for a hash without bytecode. -/
def codeNotFound (codeHash : B256) : ProviderError :=
  .trieWitnessError ("bytecode for 0x" ++ codeHash.toHex ++ " not found")

/-- EVM database implementation that uses a state trie for account and storage data
retrieval.  Block hashes are retrieved from the provider. -/
structure WitnessDatabase (X : EvmExternals) (P : Type) where
  provider : ChainState P
  parent : BlockNumHash
  trie : X.StateTrie
  bytecodes : FiniteMap B256 X.Bytecode

namespace WitnessDatabase

variable {X : EvmExternals} {P : Type} (db : WitnessDatabase X P)

/-- Get basic account information. -/
def basic (address : Address) : Except ProviderError (Option (AccountInfo X.Bytecode)) :=
  match X.getAccountValue db.trie (X.hashedAddress address) with
  | none => .ok none
  | some bytes =>
      match X.decodeTrieAccount bytes with
      | .error error => .error (.rlp error)
      | .ok account => .ok (some ⟨account.balance, account.nonce, account.codeHash, none⟩)

/-- Get storage value of address at slot. -/
def storage (address : Address) (slot : U256) : Except ProviderError U256 :=
  match X.getStorageSlotValue db.trie (X.hashedAddress address) (X.hashedSlot slot) with
  | some value =>
      match X.decodeU256 value with
      | .error error => .error (.rlp error)
      | .ok value => .ok value
  | none => .ok 0

/-- Get account code by its hash. -/
def codeByHash (codeHash : B256) : Except ProviderError X.Bytecode :=
  match db.bytecodes.get codeHash with
  | some bytecode => .ok bytecode
  | none => .error (codeNotFound codeHash)

/-- Get block hash by block number. -/
def blockHash (number : ℕ) : Except ProviderError B256 :=
  match db.provider.blockHash db.parent number with
  | some hash => .ok hash
  | none => .error (.stateForNumberNotFound number)

/-- The `Database` implementation. -/
def answer : ∀ query : DatabaseQuery, Except ProviderError (query.Answer X.Bytecode)
  | .basic address => db.basic address
  | .storage address slot => db.storage address slot
  | .codeByHash codeHash => db.codeByHash codeHash
  | .blockHash number => db.blockHash number

end WitnessDatabase

/-! ## The database of a complete state -/

namespace CompleteState

variable (X : EvmExternals) (S : CompleteState)

/-- The account under an address. -/
def basic (address : Address) : Option (AccountInfo X.Bytecode) :=
  (S.accounts.get (X.hashedAddress address)).map fun account =>
    ⟨account.balance, account.nonce, account.codeHash, none⟩

/-- The value of a slot of an address. -/
def slotValue (address : Address) (slot : U256) : U256 :=
  (S.storage (X.hashedAddress address)).value (X.hashedSlot slot)

variable {X} in
/-- The code of a hash. -/
def codeByHash (codes : B256 → Option X.Bytecode) (codeHash : B256) :
    Except ProviderError X.Bytecode :=
  match codes codeHash with
  | some bytecode => .ok bytecode
  | none => .error (codeNotFound codeHash)

/-- The database of the state: `codes` has the code of each hash, and block hashes
come from the same provider. -/
def answer (codes : B256 → Option X.Bytecode) {P : Type} (provider : ChainState P)
    (parent : BlockNumHash) :
    ∀ query : DatabaseQuery, Except ProviderError (query.Answer X.Bytecode)
  | .basic address => .ok (S.basic X address)
  | .storage address slot => .ok (S.slotValue X address slot)
  | .codeByHash codeHash => codeByHash codes codeHash
  | .blockHash number =>
      match provider.blockHash parent number with
      | some hash => .ok hash
      | none => .error (.stateForNumberNotFound number)

end CompleteState

/-! ## Comparing the two -/

namespace WitnessDatabase

variable {X : EvmExternals} {P : Type} {db : WitnessDatabase X P} {S : CompleteState}

/-- What the trie has of an account is the account. -/
theorem basic_of_valueOf (hlawful : X.Lawful) (hreveals : X.Reveals db.trie S) (address : Address) :
    db.basic address
      = if X.sparseTrie.valueOf (X.accountTrie db.trie) (X.hashedAddress address) = none
        then .ok none else .ok (S.basic X address) := by
  unfold basic CompleteState.basic
  rw [hlawful.getAccountValue_eq]
  cases hvalue : X.sparseTrie.valueOf (X.accountTrie db.trie) (X.hashedAddress address) with
  | none => rfl
  | some bytes =>
      have hleaf := hlawful.trie.get_of_valueOf hreveals.accounts hvalue
      rw [CompleteState.get_leaves] at hleaf
      obtain ⟨account, hget, rfl⟩ := Option.map_eq_some_iff.mp hleaf
      rw [hget, if_neg (Option.some_ne_none _)]
      simp only [hlawful.decode_trieAccount]
      rfl

/-- **Where an account is read right**: where its path is revealed, or the state has
no account. -/
theorem readsAccount_iff (hlawful : X.Lawful) (hreveals : X.Reveals db.trie S) (address : Address) :
    (∀ info, db.basic address = .ok info → S.basic X address = info) ↔
      X.ShowsAccount db.trie (X.hashedAddress address) ∨
        S.accounts.get (X.hashedAddress address) = none := by
  have hiff := hlawful.trie.valueOf_eq_iff hreveals.accounts (k := X.hashedAddress address)
  rw [CompleteState.get_leaves, Option.map_eq_none_iff] at hiff
  show _ ↔ X.sparseTrie.shows _ _ ≠ none ∨ _
  rw [← hiff, basic_of_valueOf hlawful hreveals]
  unfold CompleteState.basic
  cases hvalue : X.sparseTrie.valueOf (X.accountTrie db.trie) (X.hashedAddress address) with
  | none =>
      rw [if_pos rfl]
      constructor
      · intro hread
        have hnone := hread none rfl
        rw [Option.map_eq_none_iff] at hnone
        rw [hnone]
        rfl
      · intro hleaf info hinfo
        obtain rfl : none = info := Except.ok.inj hinfo
        rw [Option.map_eq_none_iff.mp hleaf.symm]
        rfl
  | some bytes =>
      rw [if_neg (Option.some_ne_none _)]
      constructor
      · intro _
        have hleaf := hlawful.trie.get_of_valueOf hreveals.accounts hvalue
        rw [CompleteState.get_leaves] at hleaf
        exact hleaf.symm
      · intro _ info hinfo
        exact Except.ok.inj hinfo

/-- What the trie has of a slot is its value. -/
theorem storage_of_valueOf (hlawful : X.Lawful) (hreveals : X.Reveals db.trie S) (address : Address)
    (slot : U256) :
    db.storage address slot
      = if X.getStorageSlotValue db.trie (X.hashedAddress address) (X.hashedSlot slot) = none
        then .ok 0 else .ok (S.slotValue X address slot) := by
  unfold storage CompleteState.slotValue
  cases hvalue : X.getStorageSlotValue db.trie (X.hashedAddress address) (X.hashedSlot slot) with
  | none => rfl
  | some bytes =>
      rw [hlawful.getStorageSlotValue_eq] at hvalue
      obtain ⟨trie, htrie, hvalue⟩ := Option.bind_eq_some_iff.mp hvalue
      have hleaf := hlawful.trie.get_of_valueOf (hreveals.storages _ _ htrie) hvalue
      rw [Storage.get_leaves] at hleaf
      split_ifs at hleaf
      obtain rfl := Option.some.inj hleaf
      simp only [hlawful.decode_u256, reduceCtorEq, if_false]

/-- **Where a slot is read right**: where its path is revealed, or the value is
zero. -/
theorem readsSlot_iff (hlawful : X.Lawful) (hreveals : X.Reveals db.trie S) (address : Address)
    (slot : U256) :
    (∀ value, db.storage address slot = .ok value → S.slotValue X address slot = value) ↔
      X.ShowsSlot db.trie (X.hashedAddress address) (X.hashedSlot slot) ∨
        S.slotValue X address slot = 0 := by
  rw [storage_of_valueOf hlawful hreveals]
  constructor
  · intro hread
    by_cases hnone : X.getStorageSlotValue db.trie (X.hashedAddress address) (X.hashedSlot slot)
        = none
    · rw [if_pos hnone] at hread
      exact .inr (hread 0 rfl)
    · left
      rw [hlawful.getStorageSlotValue_eq] at hnone
      obtain ⟨bytes, hvalue⟩ := Option.ne_none_iff_exists'.mp hnone
      obtain ⟨trie, htrie, hvalue⟩ := Option.bind_eq_some_iff.mp hvalue
      refine ⟨trie, htrie, fun hshows => ?_⟩
      rw [SparseMap.valueOf, hshows] at hvalue
      cases hvalue
  · intro hright value hvalue
    split_ifs at hvalue with hnone
    · obtain rfl : 0 = value := Except.ok.inj hvalue
      rcases hright with ⟨trie, htrie, hshows⟩ | hzero
      · rw [hlawful.getStorageSlotValue_eq, htrie, Option.bind_some] at hnone
        have hleaf := (hlawful.trie.valueOf_eq_iff (hreveals.storages _ _ htrie)).mpr (.inl hshows)
        rw [hnone, Storage.get_leaves] at hleaf
        unfold CompleteState.slotValue
        by_contra hne
        rw [if_neg hne] at hleaf
        cases hleaf
      · exact hzero
    · exact Except.ok.inj hvalue

end WitnessDatabase

end ZkRess
