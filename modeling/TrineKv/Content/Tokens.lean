import Mathlib.Data.List.AList
import TrineKv.Content.Session
import TrineKv.Lib.ByteCodec
import TrineKv.Lib.Runs

/-!
# Upload tokens

A token may be consumed by one change before it expires. Its record says which change has consumed
it, and an index has the tokens that are still available; vacuum and sweep remove expired tokens by
way of the index, so the record of a consumed token stays. Transactions are serializable, one step
each; one that consumes a token and stages a sweep of the same content is left out, and so are the
records of other buckets.

## Main results

* `TokenSystem.singleUse_of_run`: a token is used once.
-/

namespace TrineKv.Content

open List Option

/-! ## Records -/

/-- An upload token; a number stands for the hash by which all records know it. -/
structure UploadToken where
  value : ℕ
  deriving DecidableEq, Repr

/-- The identity of a change; a number stands for its bytes. -/
structure ContentChangeId where
  value : ℕ
  deriving DecidableEq, Repr

structure ContentAttachmentScope where
  storageDomainId : StorageDomainId
  ownerScopeId : ℕ
  deriving DecidableEq, Repr

/-- What a token entitles to. The durability is the byte that encodes it. -/
structure ContentAttachment where
  uploadId : UploadId
  scope : ContentAttachmentScope
  contentId : ContentId
  length : ℕ
  tokenExpiresAtUnixMs : ℕ
  durability : UInt8
  deriving DecidableEq, Repr

inductive UploadTokenStatus where
  | available
  | consumed (changeId : ContentChangeId)
  deriving DecidableEq, Repr

structure UploadTokenRecord where
  attachment : ContentAttachment
  status : UploadTokenStatus
  deriving DecidableEq, Repr

/-- Why an operation on tokens fails. -/
inductive TokenError where
  | scopeMismatch
  | alreadyConsumed
  | expired (expiredAtUnixMs : ℕ)
  | invalid
  | reclaimBlocked (expiresAtUnixMs : ℕ)
  | corruption (message : String)
  deriving DecidableEq, Repr

/-- Repeating it for the same change succeeds at any time. -/
def UploadTokenRecord.consume (record : UploadTokenRecord) (expectedScope : ContentAttachmentScope)
    (changeId : ContentChangeId) (nowUnixMs : ℕ) : Except TokenError UploadTokenRecord :=
  if record.attachment.scope ≠ expectedScope then .error .scopeMismatch
  else
    match record.status with
    | .consumed existing => if existing = changeId then .ok record else .error .alreadyConsumed
    | .available =>
      if record.attachment.tokenExpiresAtUnixMs ≤ nowUnixMs then
        .error (.expired record.attachment.tokenExpiresAtUnixMs)
      else .ok { record with status := .consumed changeId }

abbrev TokenIndexKey := StorageDomainId × ContentId × UploadToken

def ContentAttachment.indexKey (attachment : ContentAttachment) (token : UploadToken) :
    TokenIndexKey :=
  (attachment.scope.storageDomainId, attachment.contentId, token)

/-- The two buckets; the index has the time at which a token expires. -/
structure TokenStore where
  tokens : AList fun _ : UploadToken => UploadTokenRecord
  index : AList fun _ : TokenIndexKey => ℕ

/-! ## Transactions -/

structure ConsumeRequest where
  token : UploadToken
  expectedScope : ContentAttachmentScope
  changeId : ContentChangeId
  nowUnixMs : ℕ
  deriving DecidableEq, Repr

/-- A consumption that a transaction has staged, with the attachment that it returned. -/
structure Consumption extends ConsumeRequest where
  attachment : ContentAttachment
  deriving DecidableEq, Repr

namespace TokenStore

/-- Stage one more consumption; the last one that was staged comes first. -/
def consumeUploadTokenAt (store : TokenStore) (staged : List Consumption)
    (request : ConsumeRequest) : Except TokenError (List Consumption) := do
  if (staged.find? fun other => other.token = request.token).any
      fun other => other.changeId ≠ request.changeId then .error .alreadyConsumed
  else
    match store.tokens.lookup request.token with
    | none => .error .invalid
    | some record => do
      let consumed ← record.consume request.expectedScope request.changeId request.nowUnixMs
      return { request with attachment := consumed.attachment } :: staged

def stage (store : TokenStore) : List Consumption → List ConsumeRequest → List Consumption
  | staged, [] => staged
  | staged, request :: requests =>
    store.stage ((store.consumeUploadTokenAt staged request).toOption.getD staged) requests

def apply (store : TokenStore) (consumption : Consumption) : TokenStore where
  tokens := store.tokens.insert consumption.token
    ⟨consumption.attachment, .consumed consumption.changeId⟩
  index := store.index.erase (consumption.attachment.indexKey consumption.token)

def ensureUploadTokenRecord (store : TokenStore) (token : UploadToken)
    (attachment : ContentAttachment) : Except TokenError TokenStore :=
  match store.tokens.lookup token with
  | some existing =>
    if existing.attachment ≠ attachment then
      .error (.corruption
        s!"upload {attachment.uploadId.value} token claims changed during seal retry")
    else
      match existing.status, store.index.lookup (attachment.indexKey token) with
      | .available, none => .error (.corruption
          s!"upload {attachment.uploadId.value} is missing its token-authority index")
      | .consumed _, some _ => .error (.corruption
          s!"consumed upload {attachment.uploadId.value} retained token authority")
      | _, _ => .ok store
  | none => .ok
    { tokens := store.tokens.insert token ⟨attachment, .available⟩
      index := store.index.insert (attachment.indexKey token) attachment.tokenExpiresAtUnixMs }

def remove (store : TokenStore) (key : TokenIndexKey) : TokenStore where
  tokens := store.tokens.erase key.2.2
  index := store.index.erase key

def indexed (store : TokenStore) (condition : TokenIndexKey → ℕ → Bool) : List TokenIndexKey :=
  store.index.keys.filter fun key => (store.index.lookup key).any (condition key)

def vacuumContentLifecycle (store : TokenStore) (expiredBeforeUnixMs : ℕ) : TokenStore :=
  (store.indexed fun _ expiresAt => expiresAt < expiredBeforeUnixMs).foldl remove store

def pruneContentTokens (store : TokenStore) (storageDomainId : StorageDomainId)
    (contentId : ContentId) (nowUnixMs : ℕ) : Except TokenError TokenStore :=
  let keys := store.indexed fun key _ => key.1 = storageDomainId ∧ key.2.1 = contentId
  match (keys.filterMap store.index.lookup).find? fun expiresAt => nowUnixMs < expiresAt with
  | some expiresAt => .error (.reclaimBlocked expiresAt)
  | none => .ok (keys.foldl remove store)

end TokenStore

/-- The two buckets, and all consumptions that were committed. -/
structure TokenSystem where
  store : TokenStore
  consumptions : List Consumption

/-- The transactions. -/
inductive TokenAction where
  | consume (requests : List ConsumeRequest)
  | sealUpload (token : UploadToken) (attachment : ContentAttachment)
  | vacuum (expiredBeforeUnixMs : ℕ)
  | sweep (storageDomainId : StorageDomainId) (contentId : ContentId) (nowUnixMs : ℕ)
  deriving DecidableEq, Repr

def TokenStore.Indexed (store : TokenStore) (key : TokenIndexKey) : Prop :=
  ∀ expiresAt, store.index.lookup key = some expiresAt ↔
    ∃ attachment, store.tokens.lookup key.2.2 = some ⟨attachment, .available⟩ ∧
      attachment.indexKey key.2.2 = key ∧ attachment.tokenExpiresAtUnixMs = expiresAt

namespace TokenSystem

/-- No token has been given out. -/
def empty : TokenSystem := ⟨⟨∅, ∅⟩, []⟩

def commit (system : TokenSystem) (consumption : Consumption) : TokenSystem :=
  ⟨system.store.apply consumption, system.consumptions ++ [consumption]⟩

/-- Take a transaction; one that fails leaves everything as it is. -/
def step (system : TokenSystem) : TokenAction → Option TokenSystem
  | .consume requests => some ((system.store.stage [] requests).reverse.foldl commit system)
  | .sealUpload token attachment => some
    { system with
      store := (system.store.ensureUploadTokenRecord token attachment).toOption.getD system.store }
  | .vacuum expiredBeforeUnixMs => some
    { system with store := system.store.vacuumContentLifecycle expiredBeforeUnixMs }
  | .sweep storageDomainId contentId nowUnixMs => some
    { system with
      store := (system.store.pruneContentTokens storageDomainId contentId nowUnixMs).toOption.getD
        system.store }

/-- The index has the available tokens, records tell the consumed ones, and the first consumption of
a token was in time. -/
structure Sound (system : TokenSystem) : Prop where
  indexed : ∀ key, system.store.Indexed key
  kept : ∀ c ∈ system.consumptions, c.expectedScope = c.attachment.scope ∧
    system.store.tokens.lookup c.token = some ⟨c.attachment, .consumed c.changeId⟩
  recorded : ∀ token attachment changeId,
    system.store.tokens.lookup token = some ⟨attachment, .consumed changeId⟩ →
      ∃ c ∈ system.consumptions, c.token = token
  inTime : ∀ front c back, system.consumptions = front ++ c :: back →
    (∀ other ∈ front, other.token ≠ c.token) → c.nowUnixMs < c.attachment.tokenExpiresAtUnixMs

variable {system : TokenSystem} {store : TokenStore} {c other : Consumption}

/-! ## Consumptions -/

def Permits (store : TokenStore) (c : Consumption) : Prop :=
  c.expectedScope = c.attachment.scope ∧
    (store.tokens.lookup c.token = some ⟨c.attachment, .consumed c.changeId⟩ ∨
      store.tokens.lookup c.token = some ⟨c.attachment, .available⟩ ∧
        c.nowUnixMs < c.attachment.tokenExpiresAtUnixMs)

lemma permits_of_consume {record consumed : UploadTokenRecord} {request : ConsumeRequest}
    (hlookup : store.tokens.lookup request.token = some record)
    (h : record.consume request.expectedScope request.changeId request.nowUnixMs = .ok consumed) :
    Permits store { request with attachment := consumed.attachment } := by
  unfold UploadTokenRecord.consume at h
  by_cases hscope : record.attachment.scope = request.expectedScope
  · rw [if_neg (not_not.mpr hscope)] at h
    cases hstatus : record.status with
    | consumed existing =>
      simp only [hstatus] at h
      split_ifs at h with hsame
      obtain rfl := Except.ok.inj h
      exact ⟨hscope.symm, Or.inl (by rw [hlookup, ← hsame, ← hstatus])⟩
    | available =>
      simp only [hstatus] at h
      split_ifs at h with hexpired
      obtain rfl := Except.ok.inj h
      exact ⟨hscope.symm, Or.inr ⟨by rw [hlookup, ← hstatus], not_le.mp hexpired⟩⟩
  · rw [if_pos hscope] at h
    cases h

def OneChange (consumptions : List Consumption) : Prop :=
  ∀ c ∈ consumptions, ∀ other ∈ consumptions, c.token = other.token → c.changeId = other.changeId

lemma stage_spec (requests : List ConsumeRequest) {staged : List Consumption}
    (hpermits : ∀ c ∈ staged, Permits store c) (hone : OneChange staged) :
    (∀ c ∈ store.stage staged requests, Permits store c) ∧
      OneChange (store.stage staged requests) := by
  induction requests generalizing staged with
  | nil => exact ⟨hpermits, hone⟩
  | cons request requests ih =>
    cases hnext : store.consumeUploadTokenAt staged request with
    | error _ =>
      rw [TokenStore.stage, hnext]
      exact ih hpermits hone
    | ok next =>
      rw [TokenStore.stage, hnext]
      unfold TokenStore.consumeUploadTokenAt at hnext
      split at hnext
      · cases hnext
      next hclaim =>
      split at hnext
      · cases hnext
      next record hlookup =>
      obtain ⟨consumed, hconsume, hnext⟩ := ByteCodec.bind_eq_ok.mp hnext
      obtain rfl := Except.ok.inj hnext
      have hnew : ∀ other ∈ staged, request.token = other.token →
          request.changeId = other.changeId := by
        intro other hother htoken
        cases hfind : staged.find? fun other => other.token = request.token with
        | none => exact absurd htoken.symm (by simpa using List.find?_eq_none.mp hfind other hother)
        | some found =>
          have hfound : found.token = request.token := by simpa using List.find?_some hfind
          have hchange : found.changeId = request.changeId := by simpa [hfind] using hclaim
          rw [← hchange]
          exact hone found (mem_of_find?_eq_some hfind) other hother (hfound.trans htoken)
      refine ih (forall_mem_cons.mpr ⟨permits_of_consume hlookup hconsume, hpermits⟩) ?_
      rintro c (_ | ⟨_, hc⟩) other (_ | ⟨_, hother⟩) htoken
      · rfl
      · exact hnew other hother htoken
      · exact (hnew c hc htoken.symm).symm
      · exact hone c hc other hother htoken

lemma lookup_apply (store : TokenStore) (c : Consumption) (token : UploadToken) :
    (store.apply c).tokens.lookup token =
      if token = c.token then some ⟨c.attachment, .consumed c.changeId⟩
      else store.tokens.lookup token := by
  split_ifs with htoken
  · rw [htoken]
    exact AList.lookup_insert _
  · exact AList.lookup_insert_ne htoken

/-- A consumption that is permitted keeps the invariant. -/
lemma Sound.commit (h : system.Sound) (hpermits : Permits system.store c) :
    (system.commit c).Sound where
  indexed key expiresAt := by
    show (system.store.index.erase _).lookup key = _ ↔ ∃ attachment : ContentAttachment,
      (system.store.apply c).tokens.lookup key.2.2 = _ ∧ _
    rw [lookup_apply]
    by_cases htoken : key.2.2 = c.token
    · refine iff_of_false (fun hlookup => ?_) (by simp [htoken])
      by_cases hkey : key = c.attachment.indexKey c.token
      · rw [hkey, AList.lookup_erase] at hlookup
        cases hlookup
      rw [AList.lookup_erase_ne hkey, h.indexed, htoken] at hlookup
      obtain ⟨attachment, hrecord, hindex, -⟩ := hlookup
      obtain ⟨-, hconsumed | ⟨havailable, -⟩⟩ := hpermits
      · rw [hrecord] at hconsumed
        cases hconsumed
      · rw [hrecord] at havailable
        cases havailable
        exact hkey hindex.symm
    · have hkey : key ≠ c.attachment.indexKey c.token := fun heq => htoken (by rw [heq]; rfl)
      rw [AList.lookup_erase_ne hkey, if_neg htoken]
      exact h.indexed key expiresAt
  kept other hother := by
    show _ ∧ (system.store.apply c).tokens.lookup _ = _
    rw [lookup_apply]
    rcases mem_append.mp hother with hother | hother
    · obtain ⟨hscope, hrecord⟩ := h.kept other hother
      refine ⟨hscope, ?_⟩
      split_ifs with htoken
      · rw [htoken] at hrecord
        obtain ⟨-, hconsumed | ⟨havailable, -⟩⟩ := hpermits
        · rw [← hconsumed, hrecord]
        · simp [hrecord] at havailable
      · exact hrecord
    · rw [mem_singleton.mp hother, if_pos rfl]
      exact ⟨hpermits.1, rfl⟩
  recorded token attachment changeId hrecord := by
    rw [TokenSystem.commit, lookup_apply] at hrecord
    split_ifs at hrecord with htoken
    · exact ⟨c, mem_append_right _ (mem_singleton_self c), htoken.symm⟩
    · obtain ⟨other, hother, heq⟩ := h.recorded token attachment changeId hrecord
      exact ⟨other, mem_append_left _ hother, heq⟩
  inTime front first back hsplit hfirst := by
    cases back using List.reverseRecOn with
    | nil =>
      obtain ⟨rfl, heq⟩ := append_inj' hsplit rfl
      obtain rfl := singleton_inj.mp heq
      obtain ⟨-, hconsumed | ⟨-, htime⟩⟩ := hpermits
      · obtain ⟨other, hother, heq⟩ := h.recorded _ _ _ hconsumed
        exact absurd heq (hfirst other hother)
      · exact htime
    | append_singleton back last _ =>
      rw [← cons_append, ← append_assoc] at hsplit
      exact h.inTime front first back (append_inj' hsplit rfl).1 hfirst

lemma Permits.apply (h : Permits store other)
    (hone : other.token = c.token → other.changeId = c.changeId) (hc : Permits store c) :
    Permits (store.apply c) other := by
  refine ⟨h.1, ?_⟩
  by_cases htoken : other.token = c.token
  · left
    have hsame : other.attachment = c.attachment := by
      obtain ⟨-, h | ⟨h, -⟩⟩ := h <;> obtain ⟨-, h' | ⟨h', -⟩⟩ := hc <;>
        · rw [htoken, h'] at h
          simpa using (congrArg UploadTokenRecord.attachment (Option.some.inj h)).symm
    rw [lookup_apply, if_pos htoken, hsame, hone htoken]
  · rw [lookup_apply, if_neg htoken]
    exact h.2

lemma Sound.foldl_commit {consumptions : List Consumption} (h : system.Sound)
    (hpermits : ∀ c ∈ consumptions, Permits system.store c) (hone : OneChange consumptions) :
    (consumptions.foldl TokenSystem.commit system).Sound := by
  induction consumptions generalizing system with
  | nil => exact h
  | cons c consumptions ih =>
    have hc := hpermits c mem_cons_self
    refine ih (h.commit hc) (fun other hother => ?_) fun a ha b hb =>
      hone a (mem_cons_of_mem _ ha) b (mem_cons_of_mem _ hb)
    exact (hpermits other (mem_cons_of_mem _ hother)).apply
      (hone other (mem_cons_of_mem _ hother) c mem_cons_self) hc

/-! ## Seals and removals -/

lemma Sound.write {token : UploadToken} (h : system.Sound)
    (htokens : ∀ other, other ≠ token →
      store.tokens.lookup other = system.store.tokens.lookup other)
    (hindex : ∀ key : TokenIndexKey, key.2.2 ≠ token →
      store.index.lookup key = system.store.index.lookup key)
    (hbefore : ∀ attachment changeId,
      system.store.tokens.lookup token ≠ some ⟨attachment, .consumed changeId⟩)
    (hafter : ∀ attachment changeId,
      store.tokens.lookup token ≠ some ⟨attachment, .consumed changeId⟩)
    (hindexed : ∀ key : TokenIndexKey, key.2.2 = token → store.Indexed key) :
    Sound { system with store } := by
  refine ⟨fun key => ?_, fun c hc => ?_, fun other attachment changeId hrecord => ?_, h.inTime⟩
  · by_cases htoken : key.2.2 = token
    · exact hindexed key htoken
    · unfold TokenStore.Indexed
      rw [hindex key htoken, htokens _ htoken]
      exact h.indexed key
  · obtain ⟨hscope, hrecord⟩ := h.kept c hc
    refine ⟨hscope, (htokens _ fun htoken => ?_).trans hrecord⟩
    exact hbefore _ _ (htoken ▸ hrecord)
  · have htoken : other ≠ token := fun htoken => hafter _ _ (htoken ▸ hrecord)
    exact h.recorded other attachment changeId ((htokens _ htoken).symm.trans hrecord)

lemma Sound.sealUpload {token : UploadToken} {attachment : ContentAttachment} (h : system.Sound)
    (hnext : system.store.ensureUploadTokenRecord token attachment = .ok store) :
    Sound { system with store } := by
  unfold TokenStore.ensureUploadTokenRecord at hnext
  split at hnext
  · split at hnext
    · cases hnext
    · split at hnext
      · cases hnext
      · cases hnext
      · obtain rfl := Except.ok.inj hnext
        exact h
  next hnone =>
  obtain rfl := Except.ok.inj hnext
  refine h.write (fun other hne => AList.lookup_insert_ne hne) (fun key hne => ?_)
    (by simp [hnone]) (by simp) ?_
  · exact AList.lookup_insert_ne fun heq => hne (by rw [heq]; rfl)
  · rintro key rfl expiresAt
    dsimp only
    rw [AList.lookup_insert]
    by_cases hkey : key = attachment.indexKey key.2.2
    · rw [← hkey, AList.lookup_insert]
      simp [← hkey]
    · rw [AList.lookup_insert_ne hkey, h.indexed, hnone]
      simp [Ne.symm hkey]

lemma Sound.remove {key : TokenIndexKey} (h : system.Sound)
    (hkey : (system.store.index.lookup key).isSome) :
    Sound { system with store := system.store.remove key } := by
  obtain ⟨expiresAt, hkey⟩ := isSome_iff_exists.mp hkey
  obtain ⟨attachment, havailable, hindex, -⟩ := (h.indexed key expiresAt).mp hkey
  have hgone : (system.store.remove key).tokens.lookup key.2.2 = none := AList.lookup_erase _ _
  refine h.write (fun other hne => AList.lookup_erase_ne hne) (fun other hne => ?_)
    (by simp [havailable]) (by simp [hgone]) fun other htoken expiresAt => ?_
  · exact AList.lookup_erase_ne fun heq => hne (by rw [heq])
  · rw [htoken, hgone]
    refine iff_of_false (fun hlookup => ?_) (by simp)
    by_cases heq : other = key
    · rw [heq, TokenStore.remove, AList.lookup_erase] at hlookup
      cases hlookup
    · rw [TokenStore.remove, AList.lookup_erase_ne heq, h.indexed, htoken, havailable] at hlookup
      obtain ⟨same, hsame, hother, -⟩ := hlookup
      cases hsame
      exact heq (hother.symm.trans hindex)

lemma Sound.foldl_remove {keys : List TokenIndexKey} (h : system.Sound) (hnodup : keys.Nodup)
    (hkeys : ∀ key ∈ keys, (system.store.index.lookup key).isSome) :
    Sound { system with store := keys.foldl TokenStore.remove system.store } := by
  induction keys generalizing system with
  | nil => exact h
  | cons key keys ih =>
    obtain ⟨hnot, hnodup⟩ := nodup_cons.mp hnodup
    refine ih (h.remove (hkeys key mem_cons_self)) hnodup fun other hother => ?_
    show ((system.store.index.erase key).lookup other).isSome
    rw [AList.lookup_erase_ne (ne_of_mem_of_not_mem hother hnot)]
    exact hkeys other (mem_cons_of_mem _ hother)

lemma Sound.remove_indexed (h : system.Sound) (condition : TokenIndexKey → ℕ → Bool) :
    Sound { system with
      store := (system.store.indexed condition).foldl TokenStore.remove system.store } := by
  refine h.foldl_remove (system.store.index.keys_nodup.filter _) fun key hkey => ?_
  exact isSome_of_any (mem_filter.mp hkey).2

/-! ## Runs -/

lemma Sound.step {next : TokenSystem} {action : TokenAction} (h : system.Sound)
    (hstep : system.step action = some next) : next.Sound := by
  cases action with
  | consume requests =>
    obtain rfl := Option.some.inj hstep
    obtain ⟨hpermits, hone⟩ := @stage_spec system.store requests [] nofun nofun
    refine h.foldl_commit (fun c hc => hpermits c (mem_reverse.mp hc)) fun c hc other ho =>
      hone c (mem_reverse.mp hc) other (mem_reverse.mp ho)
  | sealUpload token attachment =>
    obtain rfl := Option.some.inj hstep
    cases hnext : system.store.ensureUploadTokenRecord token attachment with
    | error _ => exact h
    | ok store => exact h.sealUpload hnext
  | vacuum expiredBeforeUnixMs =>
    obtain rfl := Option.some.inj hstep
    exact h.remove_indexed _
  | sweep storageDomainId contentId nowUnixMs =>
    obtain rfl := Option.some.inj hstep
    dsimp only [TokenStore.pruneContentTokens]
    split
    · exact h
    · exact h.remove_indexed _

/-- Tokens are single use: all consumptions of a token are for one change and one scope, the first of
them was in time, and the index has exactly the tokens with a record that nobody has consumed. -/
theorem singleUse_of_run {actions : List TokenAction}
    (hrun : Runs.run step empty actions = some system) :
    (∀ c ∈ system.consumptions, ∀ other ∈ system.consumptions, c.token = other.token →
      c.changeId = other.changeId ∧ c.expectedScope = other.expectedScope) ∧
    (∀ front c back, system.consumptions = front ++ c :: back →
      (∀ other ∈ front, other.token ≠ c.token) →
        c.nowUnixMs < c.attachment.tokenExpiresAtUnixMs) ∧
    ∀ key, (system.store.index.lookup key).isSome ↔
      ∃ attachment, system.store.tokens.lookup key.2.2 = some ⟨attachment, .available⟩ ∧
        attachment.indexKey key.2.2 = key := by
  have h : system.Sound := by
    refine Runs.invariant_of_step (fun _ _ _ h _ hstep => Sound.step h hstep) ?_ hrun
      (Runs.meets_of_forall (fun _ _ => trivial) _ _)
    exact ⟨by simp [empty, TokenStore.Indexed], nofun, by simp [empty], by simp [empty]⟩
  refine ⟨fun c hc other hother htoken => ?_, h.inTime, fun key => ?_⟩
  · obtain ⟨hscope, hrecord⟩ := h.kept c hc
    obtain ⟨hscope', hrecord'⟩ := h.kept other hother
    rw [htoken, hrecord'] at hrecord
    obtain ⟨hattachment, hstatus⟩ := UploadTokenRecord.mk.inj (Option.some.inj hrecord)
    exact ⟨(UploadTokenStatus.consumed.inj hstatus).symm, by rw [hscope, hscope', hattachment]⟩
  · simp only [isSome_iff_exists, h.indexed key _]
    constructor
    · rintro ⟨-, attachment, havailable, hkey, -⟩
      exact ⟨attachment, havailable, hkey⟩
    · rintro ⟨attachment, havailable, hkey⟩
      exact ⟨_, attachment, havailable, hkey, rfl⟩

def sampleAttachment : ContentAttachment := ⟨⟨1⟩, ⟨⟨1⟩, 1⟩, ⟨1⟩, 5, 10, 0⟩

/-- A token is consumed by change 1; the seal is repeated, expired tokens are removed, change 2 is
refused, and change 1 is repeated after the token has expired. -/
def sampleRun : List TokenAction :=
  [.sealUpload ⟨1⟩ sampleAttachment, .consume [⟨⟨1⟩, ⟨⟨1⟩, 1⟩, ⟨1⟩, 9⟩],
    .sealUpload ⟨1⟩ sampleAttachment, .vacuum 100, .sweep ⟨1⟩ ⟨1⟩ 100,
    .consume [⟨⟨1⟩, ⟨⟨1⟩, 1⟩, ⟨2⟩, 9⟩, ⟨⟨1⟩, ⟨⟨1⟩, 1⟩, ⟨1⟩, 11⟩]]

theorem singleUse_of_run_sampleRun :
    ∃ system, Runs.run step empty sampleRun = some system ∧
      system.consumptions.map (fun c => (c.changeId.value, c.nowUnixMs)) = [(1, 9), (1, 11)] ∧
      ∀ c ∈ system.consumptions, ∀ other ∈ system.consumptions, c.token = other.token →
        c.changeId = other.changeId ∧ c.expectedScope = other.expectedScope := by
  have hrun : (Runs.run step empty sampleRun).map (fun system => system.consumptions.map
      fun c => (c.changeId.value, c.nowUnixMs)) = some [(1, 9), (1, 11)] := by decide
  obtain ⟨system, hsystem, hconsumptions⟩ := map_eq_some_iff.mp hrun
  exact ⟨system, hsystem, hconsumptions, (singleUse_of_run hsystem).1⟩

end TokenSystem

end TrineKv.Content
