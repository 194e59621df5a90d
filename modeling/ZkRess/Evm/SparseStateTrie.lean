import ZkRess.Evm.State
import ZkRess.Foundation.SparseMap

/-!
# The sparse state trie

`SparseStateTrie` of `reth_trie_sparse`, with the encodings of its leaves and the
hash: what the witness database and the state-root computation call.  A state trie is
a trie of accounts and, for some accounts, a trie of their storage; each of them is a
sparse map from hashed keys to encoded values.  A trie path is the unpacked key, so
keys stand for paths.

`TrieExternals.Lawful` says what the code relies on.  `Reveals` relates a state trie
to the complete state it is a part of.
-/

namespace ZkRess

open Foundation

/-- The trie, the encodings, and the hash. -/
structure TrieExternals where
  /-- `keccak256`. -/
  keccak256 : Bytes → B256
  /-- `SparseTrie`. -/
  sparseTrie : SparseMap B256 Bytes B256
  /-- `SparseStateTrie`. -/
  StateTrie : Type
  /-- `SparseStateTrieError`, to which the errors of a trie and of a decoder convert. -/
  StateTrieError : Type
  ofTrieError : sparseTrie.Error → StateTrieError
  ofRlpError : String → StateTrieError
  errorToString : StateTrieError → String
  /-- The trie of the accounts. -/
  accountTrie : StateTrie → sparseTrie.Carrier
  /-- The trie of an account's storage, if a node of it is revealed. -/
  storageTrie : StateTrie → B256 → Option sparseTrie.Carrier
  /-- `SparseStateTrie::new`, with the default blinded provider. -/
  new : StateTrie
  revealWitness : StateTrie → B256 → FiniteMap B256 Bytes → Except StateTrieError StateTrie
  getAccountValue : StateTrie → B256 → Option Bytes
  getStorageSlotValue : StateTrie → B256 → B256 → Option Bytes
  takeStorageTrie : StateTrie → B256 → Option sparseTrie.Carrier × StateTrie
  insertStorageTrie : StateTrie → B256 → sparseTrie.Carrier → StateTrie
  /-- `storage_trie_mut`; what is done to the trie is put back by
  `insertStorageTrie`. -/
  storageTrieMut : StateTrie → B256 → Option sparseTrie.Carrier
  updateAccountLeaf : StateTrie → B256 → Bytes → Except StateTrieError StateTrie
  removeAccountLeaf : StateTrie → B256 → Except StateTrieError StateTrie
  root : StateTrie → Except StateTrieError B256
  /-- `TrieAccount::encode` and `TrieAccount::decode`. -/
  encodeTrieAccount : TrieAccount → Bytes
  decodeTrieAccount : Bytes → Except String TrieAccount
  /-- `encode_fixed_size` and `U256::decode`. -/
  encodeU256 : U256 → Bytes
  decodeU256 : Bytes → Except String U256
  /-- `EMPTY_ROOT_HASH`. -/
  emptyRootHash : B256

namespace TrieExternals

variable (X : TrieExternals)

/-- `KECCAK_EMPTY`: the hash of no code. -/
def keccakEmpty : B256 := X.keccak256 []

/-- **What is relied on**: the tries are exact or fail, a state trie keeps each of its
tries apart, and what was encoded is decoded. -/
structure Lawful : Prop where
  trie : X.sparseTrie.Lawful
  commit_empty : X.sparseTrie.commit ∅ = X.emptyRootHash
  getAccountValue_eq : ∀ trie address,
    X.getAccountValue trie address = X.sparseTrie.valueOf (X.accountTrie trie) address
  getStorageSlotValue_eq : ∀ trie address slot,
    X.getStorageSlotValue trie address slot
      = (X.storageTrie trie address).bind fun storage => X.sparseTrie.valueOf storage slot
  takeStorageTrie_eq : ∀ trie address,
    (X.takeStorageTrie trie address).1 = X.storageTrie trie address
  accountTrie_take : ∀ trie address,
    X.accountTrie (X.takeStorageTrie trie address).2 = X.accountTrie trie
  storageTrie_take : ∀ trie address address',
    X.storageTrie (X.takeStorageTrie trie address).2 address'
      = if address' = address then none else X.storageTrie trie address'
  accountTrie_insert : ∀ trie address storage,
    X.accountTrie (X.insertStorageTrie trie address storage) = X.accountTrie trie
  storageTrie_insert : ∀ trie address storage address',
    X.storageTrie (X.insertStorageTrie trie address storage) address'
      = if address' = address then some storage else X.storageTrie trie address'
  storageTrieMut_eq : ∀ trie address, X.storageTrieMut trie address = X.storageTrie trie address
  updateAccountLeaf_ok : ∀ {trie address value trie'},
    X.updateAccountLeaf trie address value = .ok trie' →
      X.sparseTrie.update (X.accountTrie trie) address value = .ok (X.accountTrie trie') ∧
        ∀ address', X.storageTrie trie' address' = X.storageTrie trie address'
  removeAccountLeaf_ok : ∀ {trie address trie'},
    X.removeAccountLeaf trie address = .ok trie' →
      X.sparseTrie.remove (X.accountTrie trie) address = .ok (X.accountTrie trie') ∧
        ∀ address', X.storageTrie trie' address' = X.storageTrie trie address'
  root_ok : ∀ {trie hash}, X.root trie = .ok hash →
    hash = (X.sparseTrie.root (X.accountTrie trie)).1
  decode_trieAccount : ∀ account, X.decodeTrieAccount (X.encodeTrieAccount account) = .ok account
  decode_u256 : ∀ value, X.decodeU256 (X.encodeU256 value) = .ok value

theorem Lawful.encodeTrieAccount_injective {X : TrieExternals} (h : X.Lawful) :
    Function.Injective X.encodeTrieAccount := by
  intro a b heq
  have hdecode := congrArg X.decodeTrieAccount heq
  rw [h.decode_trieAccount, h.decode_trieAccount] at hdecode
  exact Except.ok.inj hdecode

theorem Lawful.encodeU256_injective {X : TrieExternals} (h : X.Lawful) :
    Function.Injective X.encodeU256 := by
  intro a b heq
  have hdecode := congrArg X.decodeU256 heq
  rw [h.decode_u256, h.decode_u256] at hdecode
  exact Except.ok.inj hdecode

/-- **Collision freeness**: what the root of a trie can be the root of. -/
abbrev TriePreimage := B256 → Option (FiniteMap B256 Bytes)

end TrieExternals

/-! ## Leaves and roots of complete states -/

namespace Storage

variable (X : TrieExternals)

/-- The leaves of a storage trie. -/
def leaves (storage : Storage) : FiniteMap B256 Bytes :=
  storage.slots.mapEntries fun _ value => X.encodeU256 value

/-- The root of a storage trie. -/
def root (storage : Storage) : B256 := X.sparseTrie.commit (storage.leaves X)

variable {X}

theorem get_leaves (storage : Storage) (slot : B256) :
    (storage.leaves X).get slot
      = if storage.value slot = 0 then none else some (X.encodeU256 (storage.value slot)) := by
  unfold leaves
  rw [FiniteMap.get_mapEntries, get_slots]
  split <;> rfl

@[simp] theorem leaves_empty : empty.leaves X = ∅ :=
  FiniteMap.ext_get fun slot => by rw [get_leaves]; rfl

/-- The leaves are the storage. -/
theorem leaves_injective (h : X.Lawful) : Function.Injective (leaves X) := by
  intro a b heq
  refine ext_value fun slot => ?_
  have hslot := congrArg (fun m : FiniteMap B256 Bytes => m.get slot) heq
  simp only [get_leaves] at hslot
  split_ifs at hslot with ha hb hb
  · rw [ha, hb]
  · exact h.encodeU256_injective (Option.some.inj hslot)

end Storage

namespace FullAccount

/-- The leaf of an account. -/
def trieAccount (X : TrieExternals) (account : FullAccount) : TrieAccount :=
  ⟨account.nonce, account.balance, account.storage.root X, account.codeHash⟩

end FullAccount

namespace CompleteState

variable (X : TrieExternals)

/-- The leaves of the account trie. -/
def leaves (S : CompleteState) : FiniteMap B256 Bytes :=
  S.accounts.mapEntries fun _ account => X.encodeTrieAccount (account.trieAccount X)

/-- The state root. -/
def stateRoot (S : CompleteState) : B256 := X.sparseTrie.commit (S.leaves X)

@[simp] theorem get_leaves (S : CompleteState) (address : B256) :
    (S.leaves X).get address
      = (S.accounts.get address).map fun account => X.encodeTrieAccount (account.trieAccount X) :=
  FiniteMap.get_mapEntries _ _ _

/-- The tries of the state are what their roots stand for. -/
structure Conforms (preimage : TrieExternals.TriePreimage) (S : CompleteState) : Prop where
  empty : preimage (X.sparseTrie.commit ∅) = some ∅
  accounts : preimage (S.stateRoot X) = some (S.leaves X)
  storages : ∀ address account, S.accounts.get address = some account →
    preimage (account.storage.root X) = some (account.storage.leaves X)

variable {X}

/-- States whose tries conform are told apart by their roots. -/
theorem eq_of_stateRoot_eq (h : X.Lawful) {preimage : TrieExternals.TriePreimage}
    {S S' : CompleteState} (hS : S.Conforms X preimage) (hS' : S'.Conforms X preimage)
    (hroot : S.stateRoot X = S'.stateRoot X) : S = S' := by
  have hleaves : S.leaves X = S'.leaves X :=
    Option.some.inj (hS.accounts.symm.trans ((congrArg preimage hroot).trans hS'.accounts))
  suffices haccounts : S.accounts = S'.accounts by
    cases S
    cases S'
    cases haccounts
    rfl
  refine FiniteMap.ext_get fun address => ?_
  have hleaf := congrArg (fun m : FiniteMap B256 Bytes => m.get address) hleaves
  simp only [get_leaves] at hleaf
  cases hget : S.accounts.get address with
  | none =>
      rw [hget] at hleaf
      exact (Option.map_eq_none_iff.mp hleaf.symm).symm
  | some account =>
      rw [hget] at hleaf
      obtain ⟨account', hget', hencoded⟩ := Option.map_eq_some_iff.mp hleaf.symm
      have hsame := h.encodeTrieAccount_injective hencoded
      simp only [FullAccount.trieAccount, TrieAccount.mk.injEq] at hsame
      have hstorage : account'.storage = account.storage := by
        refine Storage.leaves_injective h (Option.some.inj ?_)
        rw [← hS.storages address account hget, ← hS'.storages address account' hget', hsame.2.2.1]
      rw [hget']
      cases account
      cases account'
      simp only at hsame hstorage
      rw [hsame.1, hsame.2.1, hsame.2.2.2, hstorage]

end CompleteState

/-! ## Parts of a complete state -/

namespace TrieExternals

variable (X : TrieExternals)

/-- The state trie is a part of the complete state: of its account trie, and of the
storage trie of each account for which it has one. -/
structure Reveals (trie : X.StateTrie) (S : CompleteState) : Prop where
  accounts : X.sparseTrie.Reveals (X.accountTrie trie) (S.leaves X)
  storages : ∀ address storage, X.storageTrie trie address = some storage →
    X.sparseTrie.Reveals storage ((S.storage address).leaves X)

/-- The path of an account is revealed. -/
def ShowsAccount (trie : X.StateTrie) (address : B256) : Prop :=
  X.sparseTrie.shows (X.accountTrie trie) address ≠ none

/-- The path of a storage slot is revealed. -/
def ShowsSlot (trie : X.StateTrie) (address slot : B256) : Prop :=
  ∃ storage, X.storageTrie trie address = some storage ∧ X.sparseTrie.shows storage slot ≠ none

/-- **Revealing a witness** adds only nodes linked by hashes to the root, so that what
is revealed is a part of the state with that root. -/
def RevealsLinked (preimage : TriePreimage) : Prop :=
  ∀ root witness trie, X.revealWitness X.new root witness = .ok trie →
    ∀ S : CompleteState, S.stateRoot X = root → S.Conforms X preimage → X.Reveals trie S

end TrieExternals

end ZkRess
