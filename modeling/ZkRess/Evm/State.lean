import ZkRess.Foundation.MapEntries
import ZkRess.Primitives

/-!
# Accounts, storage, and state updates

The values execution reads and writes, and the abstract state they belong to: a
`CompleteState` has every account, under its hashed address, with the whole of its
storage.  A storage holds no zero values, so that storages are equal as soon as they
read the same (`Storage.ext_value`).

`CompleteState.apply` is what a `HashedPostState` does to a complete state.  An
account the update names is replaced by the account it gives, and is absent if that
is empty and has no storage; a destroyed account is the empty one.  An account it
does not name keeps its fields.
-/

namespace ZkRess

open Foundation

/-- An unsigned 256-bit integer. -/
abbrev U256 := BitVec 256

/-- A 20-byte address. -/
abbrev Address := BitVec 160

/-- A byte string. -/
abbrev Bytes := List UInt8

/-- The `n` low bytes of a number, the most significant first. -/
def beBytes (n : ℕ) (x : ℕ) : Bytes :=
  (List.range n).reverse.map fun i => UInt8.ofNat (x / 256 ^ i)

/-! ## Values of the code -/

/-- `Account`: the fields of an account that an update gives. -/
structure Account where
  nonce : ℕ
  balance : U256
  bytecodeHash : Option B256
  deriving DecidableEq, Repr

/-- The account without nonce, balance and code. -/
def Account.default : Account := ⟨0, 0, none⟩

/-- `Account::is_empty`. -/
def Account.IsEmpty (keccakEmpty : B256) (account : Account) : Prop :=
  account.nonce = 0 ∧ account.balance = 0 ∧ account.bytecodeHash.getD keccakEmpty = keccakEmpty

instance (keccakEmpty : B256) (account : Account) : Decidable (account.IsEmpty keccakEmpty) :=
  inferInstanceAs (Decidable (_ ∧ _ ∧ _))

/-- `TrieAccount`: an account as the leaf of the account trie has it. -/
structure TrieAccount where
  nonce : ℕ
  balance : U256
  storageRoot : B256
  codeHash : B256
  deriving DecidableEq, Repr

/-- `Account::into_trie_account`. -/
def Account.intoTrieAccount (keccakEmpty : B256) (account : Account) (storageRoot : B256) :
    TrieAccount :=
  ⟨account.nonce, account.balance, storageRoot, account.bytecodeHash.getD keccakEmpty⟩

/-- `HashedStorage`: whether the storage is wiped first, and the slots written. -/
structure HashedStorage where
  wiped : Bool
  storage : FiniteMap B256 U256

/-- `HashedPostState`: the accounts and storages changed, by hashed address.  A
destroyed account is `none`. -/
structure HashedPostState where
  accounts : FiniteMap B256 (Option Account)
  storages : FiniteMap B256 HashedStorage

/-! ## Complete states -/

/-- The non-zero slots of an account. -/
structure Storage where
  slots : FiniteMap B256 U256
  nonzero : ∀ slot, slots.get slot ≠ some 0

namespace Storage

/-- The storage without slots. -/
def empty : Storage := ⟨∅, fun _ => nofun⟩

instance : DecidableEq Storage := fun a b =>
  decidable_of_iff (a.slots = b.slots) ⟨fun h => by cases a; cases b; cases h; rfl, congrArg slots⟩

/-- The value of a slot, zero if there is none. -/
def value (storage : Storage) (slot : B256) : U256 := (storage.slots.get slot).getD 0

@[simp] theorem value_empty (slot : B256) : empty.value slot = 0 := rfl

theorem get_slots (storage : Storage) (slot : B256) :
    storage.slots.get slot
      = if storage.value slot = 0 then none else some (storage.value slot) := by
  unfold value
  cases hget : storage.slots.get slot with
  | none => rfl
  | some v =>
      have hne : v ≠ 0 := fun heq => storage.nonzero slot (heq ▸ hget)
      exact (if_neg hne).symm

/-- Storages that read the same are the same. -/
theorem ext_value {a b : Storage} (h : ∀ slot, a.value slot = b.value slot) : a = b := by
  have hslots : a.slots = b.slots := by
    refine FiniteMap.ext_get fun slot => ?_
    rw [get_slots, get_slots, h slot]
  cases a
  cases b
  cases hslots
  rfl

/-- The storage with given values at finitely many slots. -/
def ofValues (slots : Finset B256) (value : B256 → U256) : Storage where
  slots := .tabulate slots fun slot => if value slot = 0 then none else some (value slot)
  nonzero slot := by
    rw [FiniteMap.get_tabulate]
    split_ifs with hslot hzero
    · exact nofun
    · exact fun heq => hzero (Option.some.inj heq)
    · exact nofun

theorem value_ofValues {slots : Finset B256} {value : B256 → U256}
    (h : ∀ slot, slot ∉ slots → value slot = 0) (slot : B256) :
    (ofValues slots value).value slot = value slot := by
  show (FiniteMap.get (.tabulate slots _) slot).getD 0 = value slot
  rw [FiniteMap.get_tabulate_of_forall fun slot' hslot' => if_pos (h slot' hslot')]
  split
  · next hzero => exact hzero.symm
  · rfl

/-- The value of a slot after an update of the storage. -/
def updatedValue (storage : Storage) (hashed : HashedStorage) (slot : B256) : U256 :=
  match hashed.storage.get slot with
  | some value => value
  | none => if hashed.wiped then 0 else storage.value slot

/-- Wipe if asked to, and write the slots. -/
def update (storage : Storage) (hashed : HashedStorage) : Storage :=
  ofValues (storage.slots.keys ∪ hashed.storage.keys) (storage.updatedValue hashed)

theorem value_update (storage : Storage) (hashed : HashedStorage) (slot : B256) :
    (storage.update hashed).value slot = storage.updatedValue hashed slot := by
  refine value_ofValues (fun slot' hslot' => ?_) slot
  rw [Finset.mem_union, not_or] at hslot'
  unfold updatedValue value
  rw [FiniteMap.get_eq_none_of_not_mem_keys hslot'.1,
    FiniteMap.get_eq_none_of_not_mem_keys hslot'.2]
  exact ite_self _

/-- **When the old storage does not matter**: it is wiped, or all that it holds is
written over. -/
theorem update_empty_eq_iff {storage : Storage} {hashed : HashedStorage} :
    empty.update hashed = storage.update hashed ↔
      hashed.wiped ∨ ∀ slot, storage.value slot ≠ 0 → hashed.storage.get slot ≠ none := by
  constructor
  · intro heq
    by_cases hwiped : hashed.wiped
    · exact .inl hwiped
    · refine .inr fun slot hvalue hget => hvalue ?_
      have hslot := congrArg (fun storage : Storage => storage.value slot) heq
      simp only [value_update, updatedValue, hget, if_neg hwiped] at hslot
      exact hslot.symm
  · intro h
    refine ext_value fun slot => ?_
    rw [value_update, value_update]
    unfold updatedValue
    cases hget : hashed.storage.get slot with
    | some value => rfl
    | none =>
        rcases h with hwiped | hcovered
        · simp only [hwiped, if_true]
        · have hzero : storage.value slot = 0 := by
            by_contra hvalue
            exact hcovered slot hvalue hget
          rw [hzero, value_empty]

end Storage

/-- An account with its storage. -/
structure FullAccount where
  nonce : ℕ
  balance : U256
  codeHash : B256
  storage : Storage
  deriving DecidableEq

/-- The state of all accounts, by hashed address. -/
structure CompleteState where
  accounts : FiniteMap B256 FullAccount

namespace CompleteState

/-- The storage of an account; an absent account has none. -/
def storage (S : CompleteState) (address : B256) : Storage :=
  ((S.accounts.get address).map FullAccount.storage).getD .empty

/-- The storage of an account after an update. -/
def updatedStorage (S : CompleteState) (update : HashedPostState) (address : B256) : Storage :=
  match update.storages.get address with
  | some hashed => (S.storage address).update hashed
  | none => S.storage address

/-- An account the update gives, with its storage; absent if it is empty. -/
def givenAccount (keccakEmpty : B256) (account : Option Account) (storage : Storage) :
    Option FullAccount :=
  let account := account.getD .default
  if account.IsEmpty keccakEmpty ∧ storage = .empty then none
  else some
    ⟨account.nonce, account.balance, account.bytecodeHash.getD keccakEmpty, storage⟩

/-- An account the update does not name, with its storage. -/
def keptAccount (keccakEmpty : B256) (account : Option FullAccount) (storage : Storage) :
    Option FullAccount :=
  match account with
  | some account => some { account with storage }
  | none => if storage = .empty then none else some ⟨0, 0, keccakEmpty, storage⟩

/-- The account under an address after an update. -/
def updatedAccount (keccakEmpty : B256) (S : CompleteState) (update : HashedPostState)
    (address : B256) : Option FullAccount :=
  match update.accounts.get address with
  | some account => givenAccount keccakEmpty account (S.updatedStorage update address)
  | none => keptAccount keccakEmpty (S.accounts.get address) (S.updatedStorage update address)

/-- The state after an update. -/
def apply (keccakEmpty : B256) (S : CompleteState) (update : HashedPostState) : CompleteState where
  accounts :=
    .tabulate (S.accounts.keys ∪ update.accounts.keys ∪ update.storages.keys)
      (S.updatedAccount keccakEmpty update)

/-- An account replaced by itself. -/
theorem keptAccount_self (keccakEmpty : B256) (S : CompleteState) (address : B256) :
    keptAccount keccakEmpty (S.accounts.get address) (S.storage address)
      = S.accounts.get address := by
  unfold keptAccount storage
  cases S.accounts.get address with
  | none => rfl
  | some account => rfl

/-- The account tells the storage it was given. -/
theorem givenAccount_injective {keccakEmpty : B256} {account : Option Account}
    {storage storage' : Storage}
    (heq : givenAccount keccakEmpty account storage = givenAccount keccakEmpty account storage') :
    storage = storage' := by
  unfold givenAccount at heq
  simp only at heq
  split_ifs at heq with h h' h'
  · exact h.2.trans h'.2.symm
  · exact congrArg FullAccount.storage (Option.some.inj heq)

theorem keptAccount_injective {keccakEmpty : B256} {account : Option FullAccount}
    {storage storage' : Storage}
    (heq : keptAccount keccakEmpty account storage = keptAccount keccakEmpty account storage') :
    storage = storage' := by
  unfold keptAccount at heq
  cases account with
  | some account => exact congrArg FullAccount.storage (Option.some.inj heq)
  | none =>
      simp only at heq
      split_ifs at heq with h h' h'
      · exact h.trans h'.symm
      · exact congrArg FullAccount.storage (Option.some.inj heq)

theorem get_apply (keccakEmpty : B256) (S : CompleteState) (update : HashedPostState)
    (address : B256) :
    (S.apply keccakEmpty update).accounts.get address
      = S.updatedAccount keccakEmpty update address := by
  refine FiniteMap.get_tabulate_of_forall (fun address' hmem => ?_) address
  simp only [Finset.mem_union, not_or] at hmem
  unfold updatedAccount updatedStorage
  rw [FiniteMap.get_eq_none_of_not_mem_keys hmem.1.2,
    FiniteMap.get_eq_none_of_not_mem_keys hmem.2]
  show keptAccount keccakEmpty (S.accounts.get address') (S.storage address') = none
  rw [keptAccount_self, FiniteMap.get_eq_none_of_not_mem_keys hmem.1.1]

end CompleteState

end ZkRess
