import FoundationDbEffect.Foundation.Families
import FoundationDbEffect.IndexScans
import FoundationDbEffect.Persistence.PackedChunks

/-!
# Families of keys of the stores

Every store keeps its rows in families of keys, each of which has a path of texts in the root of
the store. The packings of the paths keep the families apart, also where one text begins with
another, so a store is a map for each family.
-/

namespace FoundationDbEffect.KeyFamilies

open FoundationDbEffect.Foundation FoundationDbEffect.Foundation.ByteOrder
open FoundationDbEffect.TupleLayer
open FoundationDbEffect.IndexScans (afterKey)
open FoundationDbEffect.Persistence.PackedChunks (pathKey pathRange)

/-! ## Layouts -/

def text (name : String) : TupleValue := .string (fromScalars name.toList)

/-- The paths of the families of a store. No path begins with another. -/
structure Layout (φ : Type) where
  path : φ → List String
  apart : ∀ family other, path family <+: path other → family = other

namespace Layout

variable {φ : Type}

def tuple (layout : Layout φ) (family : φ) : Tuple := (layout.path family).map text

def subspace (layout : Layout φ) (root : Subspace) (family : φ) : Except TupleError Subspace :=
  root.subspace (layout.tuple family)

def keys (layout : Layout φ) (root : Subspace) (family : φ) : Bytes → Bool :=
  interval (pathKey root (layout.tuple family)) (pathKey root (layout.tuple family) ++ [0xff])

end Layout

theorem text_injective : Function.Injective text := by
  intro left right h
  have hunits := congrArg scalars (TupleValue.string.inj h)
  rw [scalars_fromScalars, scalars_fromScalars] at hunits
  exact String.toList_inj.mp hunits

theorem firstRejection_texts (names : List String) : firstRejection (names.map text) = none := by
  rw [firstRejection_eq_none_iff]
  intro value hmem
  obtain ⟨name, -, rfl⟩ := List.mem_map.mp hmem
  rw [text, rejection, if_pos (wellFormed_fromScalars _)]

theorem of_texts {names others : List String} (h : names.map text <+: others.map text) :
    names <+: others := by
  obtain ⟨rest, hrest⟩ := h
  obtain ⟨front, back, rfl, hfront, -⟩ := List.map_eq_append_iff.mp hrest.symm
  rw [List.map_injective_iff.mpr text_injective hfront]
  exact List.prefix_append names back

section

variable {root space : Subspace} {path : Tuple}

theorem mem_keys_iff {key : Bytes} :
    interval (pathKey root path) (pathKey root path ++ [0xff]) key = true ↔
      ∃ rest, Follows rest ∧ key = pathKey root path ++ rest := by
  constructor
  · intro h
    obtain ⟨hle, hlt⟩ := interval_iff.mp h
    rcases hle.eq_or_lt with rfl | hbegin
    · exact ⟨[], follows_nil, (List.append_nil _).symm⟩
    · have hrange : pathRange root path key = true := by
        refine interval_iff.mpr ⟨not_lt.mp fun hkey => ?_, hlt⟩
        exact hbegin.not_ge ((lt_concat_zero_iff _ _).mp hkey)
      obtain ⟨byte, rest, hbyte, rfl⟩ := (interval_extensions_iff _ _).mp hrange
      exact ⟨byte :: rest, follows_cons hbyte.ne, rfl⟩
  · rintro ⟨rest, hrest, rfl⟩
    refine interval_iff.mpr ⟨prefix_le (List.prefix_append _ _), ?_⟩
    refine (append_lt_append_iff _).mpr ?_
    cases rest with
    | nil => exact List.nil_lt_cons _ _
    | cons byte rest =>
        have hbyte : byte ≠ escapeByte := by simpa [Follows] using hrest
        exact List.cons_lt_cons_iff.mpr (.inl (Persistence.PackedChunks.lt_escape hbyte))

theorem comparable_of_keys {other : Tuple} (hpath : firstRejection path = none)
    (hother : firstRejection other = none) {rest rest' : Bytes} (hrest : Follows rest)
    (hrest' : Follows rest') (h : pathKey root path ++ rest = pathKey root other ++ rest') :
    path <+: other ∨ other <+: path := by
  rw [pathKey, pathKey, List.append_assoc, List.append_assoc, List.append_cancel_left_eq,
    List.append_eq_append_iff] at h
  have hmore {more tail : Bytes} (hfollows : Follows (more ++ tail)) : Follows more := by
    cases more with
    | nil => exact follows_nil
    | cons byte more => simpa [Follows] using hfollows
  rcases h with ⟨more, hencoded, rfl⟩ | ⟨more, hencoded, rfl⟩
  · obtain ⟨extension, rfl, -⟩ := eq_append_of_encodeTuple hpath hother (hmore hrest) hencoded
    exact .inl (List.prefix_append path extension)
  · obtain ⟨extension, rfl, -⟩ := eq_append_of_encodeTuple hother hpath (hmore hrest') hencoded
    exact .inr (List.prefix_append other extension)

theorem subspace_eq_ok :
    root.subspace path = .ok space → space.prefixBytes = pathKey root path := by
  intro h
  rw [Subspace.subspace, packTrackedSync_eq] at h
  cases hpath : firstRejection path with
  | some error =>
      rw [hpath] at h
      cases h
  | none =>
      rw [hpath] at h
      cases h
      rfl

theorem pack_ok_iff_append (hpath : firstRejection path = none)
    (hspace : root.subspace path = .ok space) (tuple : Tuple) (key : Bytes) :
    space.pack tuple = .ok key ↔ root.pack (path ++ tuple) = .ok key := by
  rw [space.pack_ok_iff, root.pack_ok_iff, firstRejection_append, subspace_eq_ok hspace, pathKey,
    encodeTuple_append, List.append_assoc, and_iff_right hpath]

theorem keys_of_pack (hspace : root.subspace path = .ok space) {tuple : Tuple} {key : Bytes}
    (h : space.pack tuple = .ok key) :
    interval (pathKey root path) (pathKey root path ++ [0xff]) key = true := by
  obtain ⟨htuple, rfl⟩ := (space.pack_ok_iff tuple key).mp h
  have hfollows := follows_encodeTuple false tuple htuple follows_nil
  rw [List.append_nil] at hfollows
  exact mem_keys_iff.mpr ⟨_, hfollows, by rw [subspace_eq_ok hspace]⟩

/-- The begins and ends of the scans and clears of a subspace. -/
inductive Bound (space : Subspace) : Bytes → Prop where
  | packed {key : Bytes} (tuple : Tuple) (h : space.pack tuple = .ok key) : Bound space key
  | after {key : Bytes} (tuple : Tuple) (h : space.pack tuple = .ok key) :
      Bound space (afterKey key)
  | begin {begin stop : Bytes} (tuple : Tuple) (h : space.range tuple = .ok (begin, stop)) :
      Bound space begin
  | stop {begin stop : Bytes} (tuple : Tuple) (h : space.range tuple = .ok (begin, stop)) :
      Bound space stop

theorem range_eq_ok {tuple : Tuple} {begin stop : Bytes}
    (h : space.range tuple = .ok (begin, stop)) : firstRejection tuple = none ∧
      begin = space.prefixBytes ++ encodeTuple false tuple ++ [0x00] ∧
        stop = space.prefixBytes ++ encodeTuple false tuple ++ [0xff] := by
  rw [Subspace.range, space.pack_eq] at h
  cases htuple : firstRejection tuple with
  | some error =>
      rw [htuple] at h
      cases h
  | none =>
      rw [htuple] at h
      cases h
      exact ⟨rfl, rfl, rfl⟩

theorem Bound.exists_tail {bound : Bytes} (h : Bound space bound) : ∃ tuple tail,
    firstRejection tuple = none ∧ tail ≤ [0xff] ∧
      bound = space.prefixBytes ++ (encodeTuple false tuple ++ tail) := by
  cases h with
  | packed tuple hpack =>
      obtain ⟨htuple, rfl⟩ := (space.pack_ok_iff tuple _).mp hpack
      exact ⟨tuple, [], htuple, (List.nil_lt_cons _ _).le, by rw [List.append_nil]⟩
  | after tuple hpack =>
      obtain ⟨htuple, rfl⟩ := (space.pack_ok_iff tuple _).mp hpack
      exact ⟨tuple, [0], htuple, by decide, List.append_assoc _ _ _⟩
  | begin tuple hrange =>
      obtain ⟨htuple, rfl, -⟩ := range_eq_ok hrange
      exact ⟨tuple, [0x00], htuple, by decide, List.append_assoc _ _ _⟩
  | stop tuple hrange =>
      obtain ⟨htuple, -, rfl⟩ := range_eq_ok hrange
      exact ⟨tuple, [0xff], htuple, le_rfl, List.append_assoc _ _ _⟩

theorem Bound.between {bound : Bytes} (h : Bound space bound) :
    space.prefixBytes ≤ bound ∧ bound ≤ space.prefixBytes ++ [0xff] := by
  obtain ⟨tuple, tail, htuple, htail, rfl⟩ := h.exists_tail
  refine ⟨prefix_le (List.prefix_append _ _), (append_le_append_iff _).mpr ?_⟩
  have hfollows := follows_encodeTuple false tuple htuple follows_nil
  cases hencoded : encodeTuple false tuple with
  | nil => exact htail
  | cons byte rest =>
      have hbyte : byte ≠ escapeByte := by simpa [Follows, hencoded] using hfollows
      exact (List.cons_lt_cons_iff.mpr (.inl (Persistence.PackedChunks.lt_escape hbyte))).le

theorem keys_of_bounds (hspace : root.subspace path = .ok space) {begin stop : Bytes}
    (hbegin : Bound space begin) (hstop : Bound space stop) {key : Bytes}
    (hkey : interval begin stop key = true) :
    interval (pathKey root path) (pathKey root path ++ [0xff]) key = true := by
  obtain ⟨hle, hlt⟩ := interval_iff.mp hkey
  rw [← subspace_eq_ok hspace]
  exact interval_iff.mpr ⟨hbegin.between.1.trans hle, hlt.trans_le hstop.between.2⟩

end

/-! ## Independent families -/

/-- The subspaces of the families open, with all keys and scans inside, no two families share a
key, and each holds after any run what its own mutations leave there. -/
structure Independent {φ : Type} [DecidableEq φ] (layout : Layout φ) (root : Subspace) : Prop where
  opens : ∀ family, ∃ space, layout.subspace root family = .ok space ∧
    (∀ tuple key, space.pack tuple = .ok key ↔
      root.pack (layout.tuple family ++ tuple) = .ok key) ∧
    (∀ tuple key, space.pack tuple = .ok key → layout.keys root family key = true) ∧
    ∀ begin stop, Bound space begin → Bound space stop →
      ∀ key, interval begin stop key = true → layout.keys root family key = true
  disjoint : ∀ family other key, layout.keys root family key = true →
    layout.keys root other key = true → family = other
  alone : ∀ mutations : List (φ × RowMutation Bytes Bytes),
    (∀ mutation ∈ mutations, mutation.2.Within (layout.keys root mutation.1)) →
      ∀ (rows : OrderedMap Bytes Bytes) (family : φ) (range : Bytes → Bool),
        (∀ key, range key = true → layout.keys root family key = true) →
          (RowMutation.run mutations rows).rows range = (RowMutation.run
            (mutations.filter fun mutation => mutation.1 = family) rows).rows range

namespace Layout

variable {φ : Type} (layout : Layout φ) (root : Subspace)

theorem disjoint (family other : φ) (key : Bytes) (h : layout.keys root family key = true)
    (h' : layout.keys root other key = true) : family = other := by
  obtain ⟨rest, hrest, rfl⟩ := mem_keys_iff.mp h
  obtain ⟨rest', hrest', heq⟩ := mem_keys_iff.mp h'
  have hcomparable := comparable_of_keys (firstRejection_texts _) (firstRejection_texts _)
    hrest hrest' heq
  rcases hcomparable with hle | hle
  · exact layout.apart family other (of_texts hle)
  · exact (layout.apart other family (of_texts hle)).symm

theorem opens (family : φ) : ∃ space, layout.subspace root family = .ok space := by
  rw [subspace, Subspace.subspace, packTrackedSync_eq]
  have htexts : firstRejection (layout.tuple family) = none := firstRejection_texts _
  rw [htexts]
  exact ⟨_, rfl⟩

theorem independent [DecidableEq φ] : Independent layout root := by
  constructor
  case opens =>
    intro family
    obtain ⟨space, hspace⟩ := layout.opens root family
    refine ⟨space, hspace, pack_ok_iff_append (firstRejection_texts _) hspace, ?_, ?_⟩
    · intro tuple key hkey
      exact keys_of_pack hspace hkey
    · intro begin stop hbegin hstop key hkey
      exact keys_of_bounds hspace hbegin hstop hkey
  case disjoint => exact layout.disjoint root
  case alone =>
    intro mutations hwithin rows family range hrange
    have hsame : RowMutation.Agree (layout.keys root family) rows rows := fun key _ => rfl
    exact (RowMutation.agree_run (layout.disjoint root) hwithin family hsame).rows hrange

end Layout

/-! ## The stores -/

inductive MailboxFamily where
  | messages
  | envelopes
  | requestStates
  | primaryKeys
  | replies
  | replyMetadata
  | replyIds
  | uniqueReplies
  | messagesByShard
  | messagesByAddress
  | messagesByRequest
  | readyByShard
  | readyByAddress
  | scheduledByShard
  | scheduledByAddress
  | orders
  deriving DecidableEq

def MailboxFamily.path : MailboxFamily → List String
  | .messages => ["message"]
  | .envelopes => ["envelope"]
  | .requestStates => ["state"]
  | .primaryKeys => ["primary"]
  | .replies => ["reply"]
  | .replyMetadata => ["reply-meta"]
  | .replyIds => ["replies"]
  | .uniqueReplies => ["reply-unique"]
  | .messagesByShard => ["shard"]
  | .messagesByAddress => ["address"]
  | .messagesByRequest => ["request"]
  | .readyByShard => ["ready", "shard"]
  | .readyByAddress => ["ready", "address"]
  | .scheduledByShard => ["scheduled", "shard"]
  | .scheduledByAddress => ["scheduled", "address"]
  | .orders => ["order"]

theorem MailboxFamily.apart (family other : MailboxFamily)
    (h : family.path <+: other.path) : family = other := by
  cases family <;> cases other <;> first | rfl | simp [path] at h

def makeMessageSubspaces : Layout MailboxFamily := ⟨MailboxFamily.path, MailboxFamily.apart⟩

/-- The counter and the signal are one key each, the packing of the path itself. -/
inductive QueueFamily where
  | counterKey
  | signalKey
  | entries
  | ids
  | pending
  | locks
  | completed
  | failed
  | claims
  deriving DecidableEq

def QueueFamily.path : QueueFamily → List String
  | .counterKey => ["counter"]
  | .signalKey => ["signal"]
  | .entries => ["entries"]
  | .ids => ["ids"]
  | .pending => ["pending"]
  | .locks => ["locks"]
  | .completed => ["completed"]
  | .failed => ["failed"]
  | .claims => ["claims"]

theorem QueueFamily.apart (family other : QueueFamily)
    (h : family.path <+: other.path) : family = other := by
  cases family <;> cases other <;> first | rfl | simp [path] at h

def queueKeys : Layout QueueFamily := ⟨QueueFamily.path, QueueFamily.apart⟩

inductive StoreFamily where
  | size
  | entries
  deriving DecidableEq

def StoreFamily.path : StoreFamily → List String
  | .size => ["size"]
  | .entries => ["entries"]

theorem StoreFamily.apart (family other : StoreFamily)
    (h : family.path <+: other.path) : family = other := by
  cases family <;> cases other <;> first | rfl | simp [path] at h

def keyValueStoreKeys : Layout StoreFamily := ⟨StoreFamily.path, StoreFamily.apart⟩

inductive PersistenceFamily where
  | entries
  | values
  | expires
  | garbage
  | metadata
  deriving DecidableEq

def PersistenceFamily.path : PersistenceFamily → List String
  | .entries => ["entries"]
  | .values => ["values"]
  | .expires => ["expires"]
  | .garbage => ["garbage"]
  | .metadata => ["metadata"]

theorem PersistenceFamily.apart (family other : PersistenceFamily)
    (h : family.path <+: other.path) : family = other := by
  cases family <;> cases other <;> first | rfl | simp [path] at h

def backingPersistenceKeys : Layout PersistenceFamily :=
  ⟨PersistenceFamily.path, PersistenceFamily.apart⟩

inductive RateLimiterFamily where
  | fixed
  | buckets
  | adaptive
  deriving DecidableEq

def RateLimiterFamily.path : RateLimiterFamily → List String
  | .fixed => ["fixed"]
  | .buckets => ["buckets"]
  | .adaptive => ["adaptive"]

theorem RateLimiterFamily.apart (family other : RateLimiterFamily)
    (h : family.path <+: other.path) : family = other := by
  cases family <;> cases other <;> first | rfl | simp [path] at h

def rateLimiterKeys : Layout RateLimiterFamily := ⟨RateLimiterFamily.path, RateLimiterFamily.apart⟩

inductive RunnerFamily where
  | runners
  | leases
  deriving DecidableEq

def RunnerFamily.path : RunnerFamily → List String
  | .runners => ["runners"]
  | .leases => ["leases"]

theorem RunnerFamily.apart (family other : RunnerFamily)
    (h : family.path <+: other.path) : family = other := by
  cases family <;> cases other <;> first | rfl | simp [path] at h

def runnerKeys : Layout RunnerFamily := ⟨RunnerFamily.path, RunnerFamily.apart⟩

/-- A journal is destroyed by a clear of its indexes and its values, and its signals stay. -/
inductive RepositoryFamily where
  | index
  | values
  | signal
  deriving DecidableEq

def RepositoryFamily.path : RepositoryFamily → List String
  | .index => ["index"]
  | .values => ["values"]
  | .signal => ["signal"]

theorem RepositoryFamily.apart (family other : RepositoryFamily)
    (h : family.path <+: other.path) : family = other := by
  cases family <;> cases other <;> first | rfl | simp [path] at h

def repositoryKeys : Layout RepositoryFamily := ⟨RepositoryFamily.path, RepositoryFamily.apart⟩

inductive JournalFamily where
  | entryMarks
  | conflicts
  | acks
  | inserted
  | localOrder
  | entries
  | localEntries
  | sentAfter
  | remoteNext
  | locks
  | localSignal
  deriving DecidableEq

def JournalFamily.path : JournalFamily → List String
  | .entryMarks => ["index", "entries"]
  | .conflicts => ["index", "conflicts"]
  | .acks => ["index", "ack"]
  | .inserted => ["index", "inserted"]
  | .localOrder => ["index", "local"]
  | .entries => ["values", "entries"]
  | .localEntries => ["values", "local"]
  | .sentAfter => ["values", "sentAfter"]
  | .remoteNext => ["values", "remoteNext"]
  | .locks => ["values", "lock"]
  | .localSignal => ["signal", "local"]

theorem JournalFamily.apart (family other : JournalFamily)
    (h : family.path <+: other.path) : family = other := by
  cases family <;> cases other <;> first | rfl | simp [path] at h

def journalKeys : Layout JournalFamily := ⟨JournalFamily.path, JournalFamily.apart⟩

inductive EncryptedFamily where
  | remoteId
  | auth
  | next
  | entries
  | sequences
  | ids
  | signals
  deriving DecidableEq

def EncryptedFamily.path : EncryptedFamily → List String
  | .remoteId => ["values", "remoteId"]
  | .auth => ["values", "auth"]
  | .next => ["values", "next"]
  | .entries => ["values", "entries"]
  | .sequences => ["index", "entries"]
  | .ids => ["index", "ids"]
  | .signals => ["signal", "entries"]

theorem EncryptedFamily.apart (family other : EncryptedFamily)
    (h : family.path <+: other.path) : family = other := by
  cases family <;> cases other <;> first | rfl | simp [path] at h

def encryptedServerKeys : Layout EncryptedFamily := ⟨EncryptedFamily.path, EncryptedFamily.apart⟩

inductive PlainFamily where
  | remoteId
  | auth
  | next
  | entries
  | byId
  | sequences
  | ids
  | signals
  deriving DecidableEq

def PlainFamily.path : PlainFamily → List String
  | .remoteId => ["values", "remoteId"]
  | .auth => ["values", "auth"]
  | .next => ["values", "next"]
  | .entries => ["values", "entries"]
  | .byId => ["values", "byId"]
  | .sequences => ["index", "entries"]
  | .ids => ["index", "ordered"]
  | .signals => ["signal", "entries"]

theorem PlainFamily.apart (family other : PlainFamily)
    (h : family.path <+: other.path) : family = other := by
  cases family <;> cases other <;> first | rfl | simp [path] at h

def plainServerKeys : Layout PlainFamily := ⟨PlainFamily.path, PlainFamily.apart⟩

/-- Whatever subspace it is given as its root, every store opens the subspaces of all its families
there. Each key that is packed in one of them, and each scan between two of its bounds, lies in
its family, and no two families share a key. What a run of mutations leaves in a family is what
those of the family alone leave there, so a read of any range in it is that of a map of its own. -/
theorem families_independent (root : Subspace) :
    Independent makeMessageSubspaces root ∧ Independent queueKeys root ∧
      Independent keyValueStoreKeys root ∧ Independent backingPersistenceKeys root ∧
      Independent rateLimiterKeys root ∧ Independent runnerKeys root ∧
      Independent repositoryKeys root ∧ Independent journalKeys root ∧
      Independent encryptedServerKeys root ∧ Independent plainServerKeys root :=
  ⟨makeMessageSubspaces.independent root, queueKeys.independent root,
    keyValueStoreKeys.independent root, backingPersistenceKeys.independent root,
    rateLimiterKeys.independent root, runnerKeys.independent root,
    repositoryKeys.independent root, journalKeys.independent root,
    encryptedServerKeys.independent root, plainServerKeys.independent root⟩

end FoundationDbEffect.KeyFamilies
