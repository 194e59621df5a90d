import ZkRess.Properties.LatestValidHashes

/-!
# The walk to the latest valid ancestor

`latest_valid_hash_for_invalid_payload` jumps from a hash with an entry in the invalid cache
to the parent of the invalid ancestor that the entry names.  The jumps are of any length,
and a lookup may drop the entry it is asked for; what falls is the ancestry.

Nothing is assumed of the state but that entries name ancestors (`NamesAncestors`), and
that no stored block has one.  Then the walk ends, all it meets before its last hash is not
stored, and the answer is that last hash if it is stored (`WalksToValid`).
-/

namespace ZkRess

open Foundation

variable {X : Externals}

/-- **A lookup without an answer** leaves no entry: there was none, or it was hit too often
and is dropped. -/
def InvalidHeaderCache.Forgets (cache : InvalidHeaderCache) : Prop :=
  ∀ s hash, (cache.get s hash).1 = none → (cache.contents (cache.get s hash).2).get hash = none

/-- Walking down from a hash comes to the other one: it is the hash or an ancestor. -/
def IsAncestor (preimage : Preimage) (ancestor hash : B256) : Prop :=
  ∃ headers, Path preimage (fun header => header.parentHash) hash headers ancestor

/-- **The entries name ancestors**: an entry refers to its hash or an ancestor, and to the
parent of that. -/
def NamesAncestors (preimage : Preimage) {cache : InvalidHeaderCache} (s : cache.State) : Prop :=
  ∀ hash entry, (cache.contents s).get hash = some entry →
    IsAncestor preimage entry.block.hash hash ∧
      ∃ invalid, preimage entry.block.hash = some invalid ∧ invalid.parentHash = entry.parent

/-- **What the search for the latest valid ancestor does** from a hash on, looking up the
hashes of a trail. -/
structure WalksToValid (preimage : Preimage) (tree : EngineTree X) (start : B256)
    (trail : List B256) : Prop where
  /-- The trail is followed entry by entry, to a hash without one. -/
  walks : InvalidHeaderCache.Trail X.invalidHeaderCache tree.invalidHeaders start trail
  /-- The search ends. -/
  bounded : trail.length ≤ (X.invalidHeaderCache.contents tree.invalidHeaders).keys.card + 1
  sound : ∀ hash, (tree.latestValidHashForInvalidPayload start).1 = some hash →
    tree.provider.Contains hash ∧ IsAncestor preimage hash start ∧
      ∃ before, trail = before ++ [hash] ∧ ∀ met ∈ before, ¬tree.provider.Contains met
  complete : (tree.latestValidHashForInvalidPayload start).1 = none →
    ∃ before last, trail = before ++ [last] ∧ ¬tree.provider.Contains last ∧
      ¬X.invalidHeaderCache.Cached (tree.latestValidHashForInvalidPayload start).2.invalidHeaders
        last

namespace NamesAncestors

variable {preimage : Preimage} {cache : InvalidHeaderCache} {s : cache.State} {hash : B256}
  {entry : BlockWithParent}

theorem below (h : NamesAncestors preimage s) (hentry : (cache.contents s).get hash = some entry) :
    Below preimage (fun header => header.parentHash) entry.parent hash := by
  obtain ⟨⟨headers, hpath⟩, invalid, hinvalid, hparent⟩ := h hash entry hentry
  rw [← hparent]
  exact ⟨headers ++ [invalid], by simp, hpath.snoc hinvalid⟩

theorem get (h : NamesAncestors preimage s) (hlawful : cache.Lawful) (hash : B256) :
    NamesAncestors preimage (cache.get s hash).2 :=
  fun hash' entry hentry => h hash' entry (hlawful.get_shrinks s hash hash' entry hentry)

end NamesAncestors

namespace InvalidHeaderCache

variable {preimage : Preimage} {cache : InvalidHeaderCache} {s : cache.State} {start : B256}
  {trail : List B256}

/-- Every hash of a trail is the first or an ancestor of it. -/
theorem Trail.isAncestor (hlawful : cache.Lawful) (hnames : NamesAncestors preimage s)
    (h : cache.Trail s start trail) {hash : B256} (hmem : hash ∈ trail) :
    IsAncestor preimage hash start := by
  induction h with
  | stop _ =>
      rw [List.mem_singleton.mp hmem]
      exact ⟨[], .nil _⟩
  | @next s start entry trail found _ ih =>
      rcases List.mem_cons.mp hmem with rfl | hmem
      · exact ⟨[], .nil _⟩
      · obtain ⟨headers, -, hdown⟩ := hnames.below (hlawful.get_sound _ _ _ found)
        obtain ⟨headers', hpath⟩ := ih (hnames.get hlawful start) hmem
        exact ⟨headers ++ headers', hdown.append hpath⟩

/-- Every hash of a trail but the last has an entry. -/
theorem Trail.cached (hlawful : cache.Lawful) (h : cache.Trail s start trail) {hash : B256}
    (hmem : hash ∈ trail.dropLast) : cache.Cached s hash := by
  induction h with
  | stop _ => simp at hmem
  | @next s start entry trail found rest ih =>
      rw [List.dropLast_cons_of_ne_nil rest.ne_nil] at hmem
      rcases List.mem_cons.mp hmem with rfl | hmem
      · exact ⟨entry, hlawful.get_sound _ _ _ found⟩
      · obtain ⟨entry', hentry'⟩ := ih hmem
        exact ⟨entry', hlawful.get_shrinks s start hash entry' hentry'⟩

end InvalidHeaderCache

open InvalidHeaderCache (Trail)

namespace EngineTree

variable {tree : EngineTree X}

/-- The search leaves no entry for the last hash it looks up. -/
theorem latestValidHash_forgets (hforgets : X.invalidHeaderCache.Forgets) {start : B256}
    {trail : List B256} (h : Trail X.invalidHeaderCache tree.invalidHeaders start trail)
    (hlength : trail.length ≤ (X.invalidHeaderCache.contents tree.invalidHeaders).keys.card + 1)
    (hunknown : ¬tree.provider.Contains start) {last : B256} (hlast : trail.getLast? = some last) :
    (X.invalidHeaderCache.contents
      (tree.latestValidHashForInvalidPayload start).2.invalidHeaders).get last = none := by
  obtain ⟨s', last', hlast', hmissed, heq⟩ := latestValidHash_of_trail hunknown h hlength
  obtain rfl := Option.some.inj (hlast.symm.trans hlast')
  rw [(Prod.mk.inj heq).2]
  exact hforgets s' last hmissed

/-- **The walk to the latest valid ancestor** ends, and finds the first stored hash on its
way or none. -/
theorem walksToValid (hlawful : X.invalidHeaderCache.Lawful)
    (hforgets : X.invalidHeaderCache.Forgets) {preimage : Preimage}
    (hacyclic : NoReturn preimage fun header => header.parentHash) (tree : EngineTree X)
    (hnames : NamesAncestors preimage tree.invalidHeaders)
    (hdisjoint : ∀ hash, X.invalidHeaderCache.Cached tree.invalidHeaders hash →
      ¬tree.provider.Contains hash) (start : B256) :
    ∃ trail, WalksToValid preimage tree start trail := by
  obtain ⟨trail, hwalks, hlength⟩ := InvalidHeaderCache.exists_trail
    (Below preimage fun header => header.parentHash) Below.trans (Below.irrefl hacyclic) hlawful
    (fun hash entry hentry => hnames.below hentry) start
  have hcomes := latestValidHash_iff_comes hwalks hlength
  have hends : ∀ {last}, trail.getLast? = some last → trail = trail.dropLast ++ [last] :=
    fun hlast => (List.dropLast_append_getLast? _ hlast).symm
  have hbefore : ∀ met ∈ trail.dropLast, ¬tree.provider.Contains met :=
    fun met hmem => hdisjoint met (hwalks.cached hlawful hmem)
  refine ⟨trail, hwalks, hlength, fun hash hfound => ?_, fun hnone => ?_⟩
  · obtain ⟨hstored, hplace⟩ := (hcomes hash).mp hfound
    refine ⟨hstored, hwalks.isAncestor hlawful hnames ((hcomes hash).mp hfound).mem,
      trail.dropLast, hends ?_, hbefore⟩
    rcases hplace with hhead | ⟨-, hlast⟩
    · -- a stored hash has no entry, so the trail ends where it begins
      obtain rfl := Option.some.inj (hwalks.head.symm.trans hhead)
      match hwalks with
      | .stop _ => rfl
      | .next found _ => exact absurd hstored (hdisjoint _ ⟨_, hlawful.get_sound _ _ _ found⟩)
    · exact hlast
  · have hunstored : ∀ hash, ¬Comes tree.provider trail hash := fun hash hhash => by
      rw [(hcomes hash).mpr hhash] at hnone
      cases hnone
    have hunknown : ¬tree.provider.Contains start :=
      fun hstored => hunstored start ⟨hstored, .inl hwalks.head⟩
    have hlast := List.getLast?_eq_some_getLast hwalks.ne_nil
    generalize trail.getLast hwalks.ne_nil = last at hlast
    refine ⟨trail.dropLast, last, hends hlast, fun hstored => hunstored last ⟨hstored, .inr ?_⟩, ?_⟩
    · refine ⟨fun first hfirst => ?_, hlast⟩
      rwa [Option.some.inj (hfirst.symm.trans hwalks.head)]
    · rintro ⟨entry, hentry⟩
      rw [latestValidHash_forgets hforgets hwalks hlength hunknown hlast] at hentry
      cases hentry

end EngineTree

namespace SmallWorld

open ConsensusEngine

/-- Block 4 with the invalid ancestor 3, and block 2 which is invalid itself. -/
def invalidEntries : FiniteMap B256 BlockWithParent :=
  ((∅ : FiniteMap B256 BlockWithParent).insert 4 ⟨2, ⟨2, 3⟩⟩).insert 2 ⟨1, ⟨1, 2⟩⟩

/-- The genesis block is stored, and the cache has these entries. -/
abbrev jumping : EngineTree externals :=
  { (launch externals (block 1 0 0)).tree with invalidHeaders := invalidEntries }

private theorem get_invalidEntries {hash : B256} {entry : BlockWithParent}
    (h : invalidEntries.get hash = some entry) :
    (hash = 2 ∧ entry = ⟨1, ⟨1, 2⟩⟩) ∨ (hash = 4 ∧ entry = ⟨2, ⟨2, 3⟩⟩) := by
  unfold invalidEntries at h
  rw [FiniteMap.get_insert, FiniteMap.get_insert] at h
  split at h
  · next heq => exact .inl ⟨heq, (Option.some.inj h).symm⟩
  · split at h
    · next heq => exact .inr ⟨heq, (Option.some.inj h).symm⟩
    · simp at h

/-- From block 4 the walk jumps to block 2 and on to the genesis block. -/
theorem walksToValid_of_jumping :
    ∃ trail, WalksToValid (preimageOf forkHeaders) jumping 4 trail := by
  refine EngineTree.walksToValid cache_lawful (fun _ _ hmissed => hmissed) fork_acyclic jumping
    (fun hash entry hentry => ?_) (fun hash hcached => ?_) 4
  · rcases get_invalidEntries hentry with ⟨rfl, rfl⟩ | ⟨rfl, rfl⟩
    · exact ⟨⟨[], .nil _⟩, header 2 1 1, by decide +kernel, rfl⟩
    · exact ⟨⟨[header 4 3 3], .cons (by decide +kernel) (.nil _)⟩,
        header 3 2 2, by decide +kernel, rfl⟩
  · obtain ⟨entry, hentry⟩ := hcached
    rcases get_invalidEntries hentry with ⟨rfl, -⟩ | ⟨rfl, -⟩ <;> decide +kernel

example : (jumping.latestValidHashForInvalidPayload 4).1 = some 1 := by decide +kernel

end SmallWorld

end ZkRess
