import ZkRess.Verifier.ExecutionWitness

/-!
# Small tries

A lawful instance of the verifier's external parts, to evaluate it on examples.  The
hash of a trie is its place in a list of tries, `genuine`; encodings are unary; a trie
keeps its whole contents together with what of it is hidden.  A leaf is shown if its
node, the key followed by the value, is in the witness, a storage trie if one of its
leaves is, and the account trie as a whole if the node of its root is.
-/

namespace ZkRess

open Foundation

namespace SmallTries

/-! ## Encodings -/

/-- A number in unary. -/
def encodeNat (n : ℕ) : Bytes := List.replicate n 1 ++ [0]

/-- Read a number, and what follows it. -/
def decodeNat : Bytes → ℕ × Bytes
  | [] => (0, [])
  | byte :: bytes =>
      if byte = 0 then (0, bytes)
      else
        let (n, rest) := decodeNat bytes
        (n + 1, rest)

theorem decodeNat_encodeNat (n : ℕ) (rest : Bytes) :
    decodeNat (encodeNat n ++ rest) = (n, rest) := by
  induction n with
  | zero => rfl
  | succ n ih =>
      show decodeNat (1 :: (encodeNat n ++ rest)) = (n + 1, rest)
      unfold decodeNat
      rw [if_neg (by decide), ih]

/-- The fields of an account, one after the other. -/
def encodeTrieAccount (account : TrieAccount) : Bytes :=
  encodeNat account.nonce ++ (encodeNat account.balance.toNat ++
    (encodeNat account.storageRoot.toNat ++ (encodeNat account.codeHash.toNat ++ [])))

def decodeTrieAccount (bytes : Bytes) : Except String TrieAccount :=
  let (nonce, bytes) := decodeNat bytes
  let (balance, bytes) := decodeNat bytes
  let (storageRoot, bytes) := decodeNat bytes
  let (codeHash, _) := decodeNat bytes
  .ok ⟨nonce, .ofNat 256 balance, .ofNat 256 storageRoot, .ofNat 256 codeHash⟩

theorem decode_encodeTrieAccount (account : TrieAccount) :
    decodeTrieAccount (encodeTrieAccount account) = .ok account := by
  unfold decodeTrieAccount encodeTrieAccount
  simp only [decodeNat_encodeNat, BitVec.ofNat_toNat, BitVec.setWidth_eq]

/-- A string hash. -/
def keccak256 (bytes : Bytes) : B256 :=
  .ofNat 256 (bytes.foldl (fun h byte => h * 257 + byte.toNat + 1) 0)

/-! ## Tries -/

/-- A trie, and the keys of which nothing is shown. -/
structure PartlyHidden where
  content : FiniteMap B256 Bytes
  hidden : B256 → Bool

/-- The hash of a trie is its place among the genuine ones. -/
def commit (genuine : List (FiniteMap B256 Bytes)) (m : FiniteMap B256 Bytes) : B256 :=
  .ofNat 256 (genuine.idxOf m)

/-- The trie at a place. -/
def preimage (genuine : List (FiniteMap B256 Bytes)) : TrieExternals.TriePreimage :=
  fun root => genuine[root.toNat]?

def sparseTrie (genuine : List (FiniteMap B256 Bytes)) : SparseMap B256 Bytes B256 where
  Carrier := PartlyHidden
  Error := Unit
  commit := commit genuine
  Reveals t m := t.content = m
  shows t k := if t.hidden k then none else some (t.content.get k)
  empty := ⟨∅, fun _ => false⟩
  wipe _ := .ok ⟨∅, fun _ => false⟩
  update t k v := if t.hidden k then .error () else .ok ⟨t.content.insert k v, t.hidden⟩
  remove t k := if t.hidden k then .error () else .ok ⟨t.content.erase k, t.hidden⟩
  root t := (commit genuine t.content, t)

/-- A change is refused on a hidden key, and exact on others. -/
private theorem change_ok {t t' : PartlyHidden} {k : B256} {m : FiniteMap B256 Bytes}
    (h : (if t.hidden k then Except.error () else .ok ⟨m, t.hidden⟩) = Except.ok t') :
    t'.content = m ∧ (if t.hidden k then none else some (t.content.get k)) ≠ none := by
  split at h
  · cases h
  · next hshown =>
    obtain rfl := Except.ok.inj h
    exact ⟨rfl, by rw [if_neg hshown]; exact Option.some_ne_none _⟩

theorem sparseTrie_lawful (genuine : List (FiniteMap B256 Bytes)) :
    (sparseTrie genuine).Lawful where
  shows_sound := by
    rintro t m k v rfl hshows
    simp only [sparseTrie] at hshows
    split_ifs at hshows
    exact Option.some.inj hshows
  reveals_empty := rfl
  reveals_wipe := by
    rintro t m t' - hok
    obtain rfl := Except.ok.inj hok
    rfl
  reveals_update := by
    rintro t m k v t' rfl hok
    exact (change_ok hok).1
  reveals_remove := by
    rintro t m k t' rfl hok
    exact (change_ok hok).1
  shown_of_update := fun _ hok => (change_ok hok).2
  shown_of_remove := fun _ hok => (change_ok hok).2
  root_eq := by
    rintro t m rfl
    rfl
  reveals_root := fun hreveals => hreveals

/-! ## State tries -/

/-- The account trie, whether its root is blinded, and the revealed storage tries. -/
structure StateTrie where
  accounts : PartlyHidden
  blind : Bool
  storages : FiniteMap B256 PartlyHidden

/-- The node is in the witness. -/
def shown (witness : FiniteMap B256 Bytes) (node : Bytes) : Bool :=
  witness.get (keccak256 node) = some node

/-- The node of a leaf. -/
def leafNode (key : B256) (value : Bytes) : Bytes := beBytes 32 key.toNat ++ value

/-- The node of a root. -/
def rootNode (root : B256) : Bytes := beBytes 32 root.toNat

/-- The trie, with the leaves hidden that are not in the witness. -/
def reveal (witness : FiniteMap B256 Bytes) (content : FiniteMap B256 Bytes) : PartlyHidden :=
  ⟨content, fun key => match content.get key with
    | some value => !shown witness (leafNode key value)
    | none => false⟩

/-- The storage trie of an account, if one of its leaves is in the witness. -/
def revealStorage (genuine : List (FiniteMap B256 Bytes)) (witness : FiniteMap B256 Bytes)
    (leaf : Bytes) : Option PartlyHidden :=
  match decodeTrieAccount leaf with
  | .error _ => none
  | .ok account =>
      (preimage genuine account.storageRoot).bind fun content =>
        if (content.keys.filter fun slot => (content.get slot).any fun value =>
            shown witness (leafNode slot value)) = ∅ then none
        else some (reveal witness content)

/-- Without the node of its root the trie stays blind. -/
def revealWitness (genuine : List (FiniteMap B256 Bytes)) (root : B256)
    (witness : FiniteMap B256 Bytes) : Except String StateTrie :=
  match preimage genuine root with
  | none => .error "invalid root node"
  | some content =>
      if shown witness (rootNode root) then
        .ok
          { accounts := reveal witness content
            blind := false
            storages := .tabulate content.keys fun address =>
              (content.get address).bind (revealStorage genuine witness) }
      else .ok ⟨⟨content, fun _ => true⟩, true, ∅⟩

/-- The tries of the list, with a given execution. -/
def externals (genuine : List (FiniteMap B256 Bytes))
    (executeBlock : Block → Query DatabaseQuery (DatabaseQuery.Answer Bytes)
      (Except BlockExecutionError HashedPostState)) : VerifierExternals where
  keccak256 := keccak256
  sparseTrie := sparseTrie genuine
  StateTrie := StateTrie
  StateTrieError := String
  ofTrieError _ := "blinded node"
  ofRlpError error := error
  errorToString error := error
  accountTrie trie := trie.accounts
  storageTrie trie address := trie.storages.get address
  new := ⟨⟨∅, fun _ => true⟩, true, ∅⟩
  revealWitness _ := revealWitness genuine
  getAccountValue trie address := (sparseTrie genuine).valueOf trie.accounts address
  getStorageSlotValue trie address slot :=
    (trie.storages.get address).bind fun storage => (sparseTrie genuine).valueOf storage slot
  takeStorageTrie trie address :=
    (trie.storages.get address, { trie with storages := trie.storages.erase address })
  insertStorageTrie trie address storage :=
    { trie with storages := trie.storages.insert address storage }
  storageTrieMut trie address := trie.storages.get address
  updateAccountLeaf trie address value :=
    match (sparseTrie genuine).update trie.accounts address value with
    | .error _ => .error "blinded node"
    | .ok accounts => .ok { trie with accounts }
  removeAccountLeaf trie address :=
    match (sparseTrie genuine).remove trie.accounts address with
    | .error _ => .error "blinded node"
    | .ok accounts => .ok { trie with accounts }
  root trie :=
    if trie.blind then .error "blind trie" else .ok (commit genuine trie.accounts.content)
  encodeTrieAccount := encodeTrieAccount
  decodeTrieAccount := decodeTrieAccount
  encodeU256 value := encodeNat value.toNat
  decodeU256 bytes := .ok (.ofNat 256 (decodeNat bytes).1)
  emptyRootHash := commit genuine ∅
  Bytecode := Bytes
  newRaw bytes := bytes
  hashSlow := keccak256
  validateHeader _ := .ok ()
  validateBlockPreExecution _ := .ok ()
  validateHeaderAgainstParent header parent :=
    if header.number = parent.number + 1 then .ok () else .error (.other "parent number mismatch")
  BlockExecutionOutput := HashedPostState
  validateBlockPostExecution _ _ := .ok ()
  fromBundleState output := output
  executeBlock := executeBlock

variable {genuine : List (FiniteMap B256 Bytes)}
  {executeBlock : Block → Query DatabaseQuery (DatabaseQuery.Answer Bytes)
    (Except BlockExecutionError HashedPostState)}

theorem externals_lawful : (externals genuine executeBlock).Lawful where
  trie := sparseTrie_lawful genuine
  commit_empty := rfl
  getAccountValue_eq _ _ := rfl
  getStorageSlotValue_eq _ _ _ := rfl
  takeStorageTrie_eq _ _ := rfl
  accountTrie_take _ _ := rfl
  storageTrie_take _ _ _ := FiniteMap.get_erase _ _ _
  accountTrie_insert _ _ _ := rfl
  storageTrie_insert _ _ _ _ := FiniteMap.get_insert _ _ _ _
  storageTrieMut_eq _ _ := rfl
  updateAccountLeaf_ok := by
    intro trie address value trie' hok
    simp only [externals] at hok ⊢
    split at hok
    · cases hok
    · next hupdate =>
      obtain rfl := Except.ok.inj hok
      exact ⟨hupdate, fun _ => rfl⟩
  removeAccountLeaf_ok := by
    intro trie address trie' hok
    simp only [externals] at hok ⊢
    split at hok
    · cases hok
    · next hremove =>
      obtain rfl := Except.ok.inj hok
      exact ⟨hremove, fun _ => rfl⟩
  root_ok := by
    intro trie hash hok
    simp only [externals] at hok ⊢
    split at hok
    · cases hok
    · exact (Except.ok.inj hok).symm
  decode_trieAccount := decode_encodeTrieAccount
  decode_u256 value := by
    show Except.ok (BitVec.ofNat 256 (decodeNat (encodeNat value.toNat)).1) = .ok value
    have hdecode := decodeNat_encodeNat value.toNat []
    rw [List.append_nil] at hdecode
    rw [hdecode, BitVec.ofNat_toNat, BitVec.setWidth_eq]

/-- What a witness reveals is linked to the root. -/
theorem externals_revealsLinked :
    (externals genuine executeBlock).RevealsLinked (preimage genuine) := by
  intro root witness trie hok S hroot hconforms
  have haccounts := hconforms.accounts
  rw [hroot] at haccounts
  simp only [externals, revealWitness, haccounts] at hok
  split at hok
  · obtain rfl := Except.ok.inj hok
    refine ⟨rfl, fun address storage hstorage => ?_⟩
    simp only [externals] at hstorage
    rw [FiniteMap.get_tabulate] at hstorage
    split_ifs at hstorage
    obtain ⟨leaf, hleaf, hstorage⟩ := Option.bind_eq_some_iff.mp hstorage
    rw [CompleteState.get_leaves] at hleaf
    obtain ⟨account, haccount, rfl⟩ := Option.map_eq_some_iff.mp hleaf
    simp only [revealStorage, decode_encodeTrieAccount] at hstorage
    obtain ⟨content, hcontent, hstorage⟩ := Option.bind_eq_some_iff.mp hstorage
    split_ifs at hstorage
    obtain rfl := Option.some.inj hstorage
    have hgenuine := hconforms.storages address account haccount
    show content = _
    rw [CompleteState.storage, haccount]
    exact Option.some.inj (hcontent.symm.trans hgenuine)
  · obtain rfl := Except.ok.inj hok
    refine ⟨rfl, fun _ _ hstorage => ?_⟩
    cases hstorage

theorem ok_of_toOption {E A : Type} {x : Except E A} {a : A} (h : x.toOption = some a) :
    x = .ok a := by
  cases x with
  | error e => cases h
  | ok a' => exact congrArg Except.ok (Option.some.inj h)

/-! ## States of one account -/

/-- The hashed address of account 1. -/
def address : B256 := keccak256 (beBytes 20 1)

/-- The state with account 1 only. -/
def oneAccount (nonce : ℕ) (storage : Storage) : CompleteState :=
  ⟨(∅ : FiniteMap B256 FullAccount).insert address ⟨nonce, 0, 0, storage⟩⟩

theorem get_oneAccount (nonce : ℕ) (storage : Storage) (address' : B256) :
    (oneAccount nonce storage).accounts.get address'
      = if address' = address then some ⟨nonce, 0, 0, storage⟩ else none :=
  FiniteMap.get_insert _ _ _ _

theorem storage_oneAccount (nonce : ℕ) (storage : Storage) :
    (oneAccount nonce storage).storage address = storage := by
  unfold CompleteState.storage
  rw [get_oneAccount, if_pos rfl]
  rfl

/-- The state conforms if its tries are in the list. -/
theorem oneAccount_conforms {nonce : ℕ} {storage : Storage}
    (hempty : preimage genuine (commit genuine ∅) = some ∅)
    (haccounts : preimage genuine ((oneAccount nonce storage).stateRoot
        (externals genuine executeBlock).toTrieExternals)
      = some ((oneAccount nonce storage).leaves (externals genuine executeBlock).toTrieExternals))
    (hstorage : preimage genuine (storage.root (externals genuine executeBlock).toTrieExternals)
      = some (storage.leaves (externals genuine executeBlock).toTrieExternals)) :
    (oneAccount nonce storage).Conforms (externals genuine executeBlock).toTrieExternals
      (preimage genuine) := by
  refine ⟨hempty, haccounts, fun address' account hget => ?_⟩
  rw [get_oneAccount] at hget
  split_ifs at hget
  obtain rfl := Option.some.inj hget
  exact hstorage

end SmallTries

end ZkRess
