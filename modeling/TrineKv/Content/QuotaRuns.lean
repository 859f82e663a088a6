import TrineKv.Content.Quota
import TrineKv.Lib.Runs

/-!
# The quota over all uploads

An operation on an upload holds the lock of the upload and makes several steps: it publishes states
of the upload and runs transactions on the ledger. Steps on different uploads, changes of limits and
sweeps come in any order, and a crash or an error can end an operation between any two of its steps;
what is durable then is where a retry starts.

## Main results

* `QuotaState.balanced_of_run`: no limit is exceeded.
-/

namespace TrineKv.Content

open Tally

variable {contentId : ContentId}

inductive UploadOperation where
  /-- Nobody holds the lock. -/
  | idle
  /-- The first state is published, and its bytes are to be reserved. -/
  | reserving
  /-- The first reservation failed, and the upload is to be given up. -/
  | abandoning
  /-- Bytes are reserved, and the next open state is to be published. -/
  | publishing (next : UploadSessionState)
  /-- The upload is aborting, and its reservation is to be released; perhaps the identity is then
  started again. -/
  | releasing (restart : Option ContentUploadOptions)
  /-- The reservation is released, and the tombstone is to be written. -/
  | retiring (restart : Option ContentUploadOptions)
  /-- The identity is to be started again. -/
  | restarting (options : ContentUploadOptions)
  /-- The upload is sealing, and its quota is to be finalized. -/
  | finalizing
  /-- The quota is finalized, and the sealed state is to be published. -/
  | completing
  deriving DecidableEq, Repr

structure QuotaState where
  uploads : UploadId → Option UploadObject
  ledger : QuotaLedger
  operations : UploadId → UploadOperation

/-- A step of an operation, a change of a limit, a completed sweep, or the end of operations. -/
inductive QuotaAction where
  | begin (uploadId : UploadId) (options : ContentUploadOptions)
  | beginAgain (uploadId : UploadId) (options : ContentUploadOptions)
  | reserveInitial (uploadId : UploadId)
  | resume (uploadId : UploadId)
  | write (uploadId : UploadId) (incoming : ℕ)
  | publishWrite (uploadId : UploadId)
  | abort (uploadId : UploadId)
  | release (uploadId : UploadId)
  | retire (uploadId : UploadId)
  | restart (uploadId : UploadId)
  | seal (uploadId : UploadId) (contentId : ContentId) (tokenExpiresAt : ℕ)
  | finalize (uploadId : UploadId)
  | publishSealed (uploadId : UploadId)
  | prune (uploadId : UploadId)
  | setQuota (storageDomainId : StorageDomainId) (limit : Option ℕ)
  | sweep (storageDomainId : StorageDomainId) (contentId : ContentId)
  | fail (uploadId : UploadId)
  | crash
  deriving DecidableEq, Repr

def UploadSessionState.written (state : UploadSessionState) (incoming : ℕ) :
    Except ContentError UploadSessionState :=
  match checkedAdd state.length incoming with
  | none => .error (.other (.invalidOptions "content length overflow"))
  | some length =>
    match state.options.expectedLength with
    | some expected =>
      if expected < length then .error (.lengthMismatch expected length)
      else advance length
    | none => advance length
where
  /-- The open state with the given length. -/
  advance (length : ℕ) : Except ContentError UploadSessionState := do
    let revision ← state.nextRevision
    return { state with
      revision
      length
      completeChunks := length / state.options.chunkBytes
      partialLen := length % state.options.chunkBytes }

namespace QuotaState

/-- A database without uploads. -/
def empty : QuotaState := ⟨fun _ => none, .empty, fun _ => .idle⟩

def publish (state : QuotaState) (uploadId : UploadId) (object : UploadObject)
    (operation : UploadOperation) : QuotaState :=
  { state with
    uploads := Function.update state.uploads uploadId (some object)
    operations := Function.update state.operations uploadId operation }

/-- Commit a transaction on the ledger and go on with the operation, or with another one if it
fails. -/
def transact (state : QuotaState) (uploadId : UploadId)
    (result : Except ContentError QuotaLedger) (next failed : UploadOperation) : QuotaState :=
  match result with
  | .ok ledger =>
    { state with ledger, operations := Function.update state.operations uploadId next }
  | .error _ => { state with operations := Function.update state.operations uploadId failed }

def session (state : QuotaState) (uploadId : UploadId) : Option UploadSessionState :=
  match state.uploads uploadId with
  | some (.state session) => some session
  | _ => none

def step (state : QuotaState) : QuotaAction → Option QuotaState
  | .begin uploadId options =>
    if state.operations uploadId = .idle ∧ state.uploads uploadId = none then
      some (state.publish uploadId (.state (.initial uploadId options)) .reserving)
    else none
  | .beginAgain uploadId options => do
    let session ← state.session uploadId
    if state.operations uploadId = .idle ∧ session.status = .aborting then
      some { state with
        operations := Function.update state.operations uploadId (.releasing (some options)) }
    else none
  | .reserveInitial uploadId => do
    let session ← state.session uploadId
    if state.operations uploadId = .reserving then
      some (state.transact uploadId
        (state.ledger.reserveContentUploadBytes session session.initialUploadReservation)
        .idle .abandoning)
    else none
  | .resume uploadId => do
    let session ← state.session uploadId
    if state.operations uploadId = .idle ∧ session.status = .open then
      some (state.transact uploadId
        (state.ledger.reserveContentUploadBytes session session.initialUploadReservation)
        .idle .idle)
    else none
  | .write uploadId incoming => do
    let session ← state.session uploadId
    if state.operations uploadId = .idle ∧ session.status = .open ∧ 0 < incoming then
      match session.written incoming with
      | .error _ => none
      | .ok next =>
        some (state.transact uploadId
          (state.ledger.reserveContentUploadBytes session
            (session.options.expectedLength.getD next.length))
          (.publishing next) .idle)
    else none
  | .publishWrite uploadId =>
    match state.operations uploadId with
    | .publishing next => some (state.publish uploadId (.state next) .idle)
    | _ => none
  | .abort uploadId => do
    let session ← state.session uploadId
    if state.operations uploadId = .idle ∨ state.operations uploadId = .abandoning then
      match session.status with
      | .open =>
        match session.intoAborting with
        | .ok aborting => some (state.publish uploadId (.state aborting) (.releasing none))
        | .error _ => none
      | .aborting =>
        some { state with
          operations := Function.update state.operations uploadId (.releasing none) }
      | _ => none
    else none
  | .release uploadId => do
    let session ← state.session uploadId
    match state.operations uploadId with
    | .releasing restart =>
      some (state.transact uploadId
        (state.ledger.releaseContentUploadReservation session.options.storageDomainId uploadId)
        (.retiring restart) .idle)
    | _ => none
  | .retire uploadId =>
    match state.operations uploadId with
    | .retiring restart =>
      some (state.publish uploadId (.tombstone .aborted)
        (restart.elim .idle .restarting))
    | _ => none
  | .restart uploadId =>
    match state.operations uploadId with
    | .restarting options =>
      some (state.publish uploadId (.state (.initial uploadId options)) .reserving)
    | _ => none
  | .seal uploadId contentId tokenExpiresAt => do
    let session ← state.session uploadId
    if state.operations uploadId = .idle then
      match session.status with
      | .open =>
        match session.intoSealing contentId tokenExpiresAt with
        | .ok sealing => some (state.publish uploadId (.state sealing) .finalizing)
        | .error _ => none
      | .sealing _ =>
        some { state with operations := Function.update state.operations uploadId .finalizing }
      | _ => none
    else none
  | .finalize uploadId => do
    let session ← state.session uploadId
    match state.operations uploadId, session.status with
    | .finalizing, .sealing sealed =>
      some (state.transact uploadId (state.ledger.finalizeContentUploadQuota uploadId sealed)
        .completing .idle)
    | _, _ => none
  | .publishSealed uploadId => do
    let session ← state.session uploadId
    if state.operations uploadId = .completing then
      match session.intoSealed with
      | .ok sealed => some (state.publish uploadId (.state sealed) .idle)
      | .error _ => none
    else none
  | .prune uploadId => do
    let session ← state.session uploadId
    match session.status with
    | .sealed _ =>
      if state.operations uploadId = .idle then
        some (state.publish uploadId (.tombstone .sealed) .idle)
      else none
    | _ => none
  | .setQuota storageDomainId limit =>
    match state.ledger.setContentPhysicalQuota storageDomainId limit with
    | .ok ledger => some { state with ledger }
    | .error _ => some state
  | .sweep storageDomainId contentId =>
    match state.ledger.stageReclaimedContentQuota storageDomainId contentId with
    | .ok ledger => some { state with ledger }
    | .error _ => some state
  | .fail uploadId =>
    some { state with operations := Function.update state.operations uploadId .idle }
  | .crash => some { state with operations := fun _ => .idle }

/-! ## The invariant -/

def reservedBytes (ledger : QuotaLedger) (uploadId : UploadId) : ℕ :=
  (ledger.reservations.lookup uploadId).elim 0 ContentPhysicalReservationRecord.reservedBytes

/-- The reservation covers an open upload and the state about to be published, and only what is
aborting is released. -/
structure Fits (ledger : QuotaLedger) (uploadId : UploadId) (object : Option UploadObject)
    (operation : UploadOperation) : Prop where
  identity : ∀ session, object = some (.state session) → session.uploadId = uploadId
  covered : ∀ session, object = some (.state session) → session.status = .open →
    session.length ≤ reservedBytes ledger uploadId
  publishing : ∀ next, operation = .publishing next →
    next.uploadId = uploadId ∧ next.length ≤ reservedBytes ledger uploadId
  releasing : ∀ restart, operation = .releasing restart →
    ∃ session, object = some (.state session) ∧ session.status = .aborting

structure Sound (state : QuotaState) : Prop where
  balanced : state.ledger.Balanced
  fits : ∀ uploadId, Fits state.ledger uploadId (state.uploads uploadId) (state.operations uploadId)

section Invariant

variable {state state' : QuotaState} {ledger ledger' : QuotaLedger} {uploadId : UploadId}
  {object : Option UploadObject} {operation : UploadOperation} {session : UploadSessionState}
  {desired : ℕ} {domain : StorageDomainId}

lemma Fits.mono (h : Fits ledger uploadId object operation)
    (hle : reservedBytes ledger uploadId ≤ reservedBytes ledger' uploadId) :
    Fits ledger' uploadId object operation where
  identity := h.identity
  covered session hobject hopen := (h.covered session hobject hopen).trans hle
  publishing next hnext := ⟨(h.publishing next hnext).1, (h.publishing next hnext).2.trans hle⟩
  releasing := h.releasing

lemma Fits.idle (h : Fits ledger uploadId object operation) :
    Fits ledger uploadId object .idle :=
  ⟨h.identity, h.covered, fun _ h => (nomatch h), fun _ h => (nomatch h)⟩

lemma fits_state (hidentity : session.uploadId = uploadId)
    (hcovered : session.status = .open → session.length ≤ reservedBytes ledger uploadId)
    (hpublishing : ∀ next, operation ≠ .publishing next)
    (hreleasing : session.status ≠ .aborting → ∀ restart, operation ≠ .releasing restart) :
    Fits ledger uploadId (some (.state session)) operation where
  identity session' hobject := by
    obtain rfl := UploadObject.state.inj (Option.some.inj hobject)
    exact hidentity
  covered session' hobject := by
    obtain rfl := UploadObject.state.inj (Option.some.inj hobject)
    exact hcovered
  publishing next hnext := absurd hnext (hpublishing next)
  releasing restart hrestart := by
    by_cases haborting : session.status = .aborting
    · exact ⟨session, rfl, haborting⟩
    · exact absurd hrestart (hreleasing haborting restart)

lemma Sound.update (h : state.Sound) (hbalanced : ledger'.Balanced)
    (hothers : ∀ other, other ≠ uploadId →
      reservedBytes state.ledger other ≤ reservedBytes ledger' other)
    (hfits : Fits ledger' uploadId object operation) :
    Sound ⟨Function.update state.uploads uploadId object, ledger',
      Function.update state.operations uploadId operation⟩ where
  balanced := hbalanced
  fits other := by
    by_cases heq : other = uploadId
    · subst heq
      simpa using hfits
    · simpa [heq] using (h.fits other).mono (hothers other heq)

lemma Sound.publish (h : state.Sound) {object : UploadObject}
    (hfits : Fits state.ledger uploadId (some object) operation) :
    (state.publish uploadId object operation).Sound :=
  h.update h.balanced (fun _ _ => le_refl _) hfits

lemma Sound.operate (h : state.Sound)
    (hfits : Fits state.ledger uploadId (state.uploads uploadId) operation) :
    Sound { state with operations := Function.update state.operations uploadId operation } := by
  have hupdate := h.update h.balanced (fun _ _ => le_refl _) hfits
  rwa [Function.update_eq_self] at hupdate

lemma Sound.transact (h : state.Sound) {result : Except ContentError QuotaLedger}
    {next failed : UploadOperation}
    (hok : ∀ ledger', result = .ok ledger' → ledger'.Balanced ∧
      (∀ other, other ≠ uploadId →
        reservedBytes state.ledger other ≤ reservedBytes ledger' other) ∧
      Fits ledger' uploadId (state.uploads uploadId) next)
    (hfailed : ∀ error, result = .error error →
      Fits state.ledger uploadId (state.uploads uploadId) failed) :
    (state.transact uploadId result next failed).Sound := by
  unfold QuotaState.transact
  cases result with
  | ok ledger' =>
    obtain ⟨hbalanced, hothers, hfits⟩ := hok ledger' rfl
    have hupdate := h.update hbalanced hothers hfits
    rwa [Function.update_eq_self] at hupdate
  | error error => exact h.operate (hfailed error rfl)

lemma Sound.relabel (h : state.Sound) (hbalanced : ledger'.Balanced)
    (hsame : ledger'.reservations = state.ledger.reservations) :
    Sound { state with ledger := ledger' } where
  balanced := hbalanced
  fits uploadId := (h.fits uploadId).mono (by rw [reservedBytes, reservedBytes, hsame])

lemma session_eq_some (h : state.session uploadId = some session) :
    state.uploads uploadId = some (.state session) := by
  unfold QuotaState.session at h
  split at h
  next hobject =>
    obtain rfl := Option.some.inj h
    exact hobject
  · cases h

lemma Sound.uploadId_eq (h : state.Sound) (hsession : state.session uploadId = some session) :
    session.uploadId = uploadId :=
  (h.fits uploadId).identity session (session_eq_some hsession)

lemma reservedBytes_le_of_reserve
    (h : ledger.reserveContentUploadBytes session desired = .ok ledger') (other : UploadId) :
    reservedBytes ledger other ≤ reservedBytes ledger' other := by
  unfold reservedBytes
  cases hlookup : ledger.reservations.lookup other with
  | none => exact Nat.zero_le _
  | some reservation =>
    obtain ⟨reservation', hlookup', hle⟩ := QuotaLedger.lookup_of_reserve h hlookup
    rw [hlookup']
    exact hle

lemma le_reservedBytes_of_reserve
    (h : ledger.reserveContentUploadBytes session desired = .ok ledger') :
    desired ≤ reservedBytes ledger' session.uploadId := by
  obtain ⟨reservation, hlookup, hle⟩ := QuotaLedger.exists_reservation_of_reserve h
  rw [reservedBytes, hlookup]
  exact hle

lemma Sound.reserve (h : state.Sound) {next failed : UploadOperation}
    (hnext : ∀ ledger', state.ledger.reserveContentUploadBytes session desired = .ok ledger' →
      Fits ledger' uploadId (state.uploads uploadId) next)
    (hfailed : Fits state.ledger uploadId (state.uploads uploadId) failed) :
    (state.transact uploadId (state.ledger.reserveContentUploadBytes session desired)
      next failed).Sound :=
  h.transact
    (fun _ hok =>
      ⟨h.balanced.reserve hok, fun other _ => reservedBytes_le_of_reserve hok other, hnext _ hok⟩)
    fun _ _ => hfailed

lemma reservedBytes_of_release
    (h : ledger.releaseContentUploadReservation domain uploadId = .ok ledger') {other : UploadId}
    (hne : other ≠ uploadId) : reservedBytes ledger' other = reservedBytes ledger other := by
  unfold QuotaLedger.releaseContentUploadReservation at h
  split at h
  · obtain rfl := Except.ok.inj h
    rfl
  · dsimp only at h
    split_ifs at h
    split at h
    · cases h
    · obtain rfl := Except.ok.inj h
      unfold reservedBytes QuotaLedger.putQuota
      rw [AList.lookup_erase_ne hne]

lemma reservations_of_setLimit {limit : Option ℕ}
    (h : ledger.setContentPhysicalQuota domain limit = .ok ledger') :
    ledger'.reservations = ledger.reservations := by
  unfold QuotaLedger.setContentPhysicalQuota at h
  cases limit with
  | none =>
    obtain rfl := Except.ok.inj h
    rfl
  | some limit =>
    dsimp only at h
    split_ifs at h
    obtain rfl := Except.ok.inj h
    rfl

lemma reservations_of_reclaim
    (h : ledger.stageReclaimedContentQuota domain contentId = .ok ledger') :
    ledger'.reservations = ledger.reservations := by
  unfold QuotaLedger.stageReclaimedContentQuota at h
  split at h
  · cases h
  · dsimp only at h
    split at h
    · cases h
    · obtain rfl := Except.ok.inj h
      rfl

/-- The state after a write keeps the identity, and is no longer than what is reserved for it. -/
lemma written_eq_ok {incoming : ℕ} {next : UploadSessionState}
    (h : session.written incoming = .ok next) :
    next.uploadId = session.uploadId ∧
      next.length ≤ session.options.expectedLength.getD next.length := by
  have hadvance : ∀ length, UploadSessionState.written.advance session length = .ok next →
      next.uploadId = session.uploadId ∧ next.length = length := by
    intro length hnext
    obtain ⟨revision, -, hok⟩ := ByteCodec.bind_eq_ok.mp hnext
    obtain rfl := Except.ok.inj hok
    exact ⟨rfl, rfl⟩
  unfold UploadSessionState.written at h
  split at h
  · cases h
  next length hlength =>
  cases hexpected : session.options.expectedLength with
  | none =>
    rw [hexpected] at h
    exact ⟨(hadvance length h).1, le_refl _⟩
  | some expected =>
    rw [hexpected] at h
    dsimp only at h
    split_ifs at h with hlt
    obtain ⟨hidentity, hlength⟩ := hadvance length h
    exact ⟨hidentity, by rw [Option.getD_some, hlength]; omega⟩

lemma intoAborting_eq_ok {aborting : UploadSessionState} (h : session.intoAborting = .ok aborting) :
    aborting.uploadId = session.uploadId ∧ aborting.status = .aborting := by
  unfold UploadSessionState.intoAborting at h
  split at h
  · obtain ⟨revision, -, hok⟩ := ByteCodec.bind_eq_ok.mp h
    obtain rfl := Except.ok.inj hok
    exact ⟨rfl, rfl⟩
  · cases h

lemma intoSealing_eq_ok {sealing : UploadSessionState}
    {tokenExpiresAt : ℕ} (h : session.intoSealing contentId tokenExpiresAt = .ok sealing) :
    sealing.uploadId = session.uploadId ∧ ∃ sealed, sealing.status = .sealing sealed := by
  obtain ⟨revision, -, hok⟩ := ByteCodec.bind_eq_ok.mp h
  obtain rfl := Except.ok.inj hok
  exact ⟨rfl, _, rfl⟩

lemma intoSealed_eq_ok {sealed : UploadSessionState} (h : session.intoSealed = .ok sealed) :
    sealed.uploadId = session.uploadId ∧ ∃ content, sealed.status = .sealed content := by
  unfold UploadSessionState.intoSealed at h
  split at h
  · obtain ⟨revision, -, hok⟩ := ByteCodec.bind_eq_ok.mp h
    obtain rfl := Except.ok.inj hok
    exact ⟨rfl, _, rfl⟩
  · cases h

/-! ## The steps keep the invariant -/

lemma Sound.publish_initial (h : state.Sound) (options : ContentUploadOptions) :
    (state.publish uploadId (.state (.initial uploadId options)) .reserving).Sound :=
  h.publish (fits_state rfl (fun _ => Nat.zero_le _) (fun _ => nofun) fun _ _ => nofun)

lemma Sound.operate_releasing (h : state.Sound) (hsession : state.session uploadId = some session)
    (haborting : session.status = .aborting) (restart : Option ContentUploadOptions) :
    Sound { state with
      operations := Function.update state.operations uploadId (.releasing restart) } := by
  refine h.operate ?_
  rw [session_eq_some hsession]
  exact fits_state (h.uploadId_eq hsession) (fun hopen => by rw [haborting] at hopen; cases hopen)
    (fun _ => nofun) fun hne => absurd haborting hne

lemma Sound.write (h : state.Sound) (hsession : state.session uploadId = some session)
    {incoming : ℕ} {next : UploadSessionState} (hnext : session.written incoming = .ok next) :
    (state.transact uploadId
      (state.ledger.reserveContentUploadBytes session
        (session.options.expectedLength.getD next.length))
      (.publishing next) .idle).Sound := by
  obtain ⟨hidentity, hlength⟩ := written_eq_ok hnext
  have hupload := h.uploadId_eq hsession
  refine h.reserve (fun ledger' hok => ?_) (h.fits uploadId).idle
  have hfits := (h.fits uploadId).idle.mono (reservedBytes_le_of_reserve hok uploadId)
  have hreserved := le_reservedBytes_of_reserve hok
  rw [hupload] at hreserved
  refine ⟨hfits.identity, hfits.covered, fun next' heq => ?_, fun _ h => (nomatch h)⟩
  obtain rfl := UploadOperation.publishing.inj heq
  exact ⟨hidentity.trans hupload, hlength.trans hreserved⟩

lemma Sound.release (h : state.Sound) {restart : Option ContentUploadOptions}
    (hoperation : state.operations uploadId = .releasing restart) :
    (state.transact uploadId (state.ledger.releaseContentUploadReservation domain uploadId)
      (.retiring restart) .idle).Sound := by
  obtain ⟨session, hobject, haborting⟩ := (h.fits uploadId).releasing restart hoperation
  refine h.transact (fun ledger' hok => ?_) fun _ _ => (h.fits uploadId).idle
  refine ⟨h.balanced.release hok, fun other hne => (reservedBytes_of_release hok hne).ge, ?_⟩
  rw [hobject]
  exact fits_state ((h.fits uploadId).identity session hobject)
    (fun hopen => by rw [haborting] at hopen; cases hopen) (fun _ => nofun) fun _ _ => nofun

lemma Sound.finalize (h : state.Sound) (hsession : state.session uploadId = some session)
    {sealed : SealedContent} (hsealing : session.status = .sealing sealed) :
    (state.transact uploadId (state.ledger.finalizeContentUploadQuota uploadId sealed)
      .completing .idle).Sound := by
  refine h.transact (fun ledger' hok => ?_) fun _ _ => (h.fits uploadId).idle
  have hsettles := h.balanced.settles_finalize uploadId sealed
  rw [hok] at hsettles
  obtain ⟨hbalanced, hothers⟩ := hsettles
  refine ⟨hbalanced, fun other hne => ?_, ?_⟩
  · rw [reservedBytes, reservedBytes, hothers other hne]
  · rw [session_eq_some hsession]
    exact fits_state (h.uploadId_eq hsession)
      (fun hopen => by rw [hsealing] at hopen; cases hopen) (fun _ => nofun) fun _ _ => nofun

lemma fits_tombstone {retirement : UploadIdRetirement}
    (hpublishing : ∀ next, operation ≠ .publishing next)
    (hreleasing : ∀ restart, operation ≠ .releasing restart) :
    Fits ledger uploadId (some (.tombstone retirement)) operation :=
  ⟨fun _ h => (nomatch h), fun _ h => (nomatch h), fun next h => absurd h (hpublishing next),
    fun restart h => absurd h (hreleasing restart)⟩

lemma Sound.step_publishWrite (h : state.Sound)
    (hstep : state.step (.publishWrite uploadId) = some state') : state'.Sound := by
  unfold QuotaState.step at hstep
  dsimp only at hstep
  split at hstep
  next next hoperation =>
    obtain rfl := Option.some.inj hstep
    obtain ⟨hidentity, hlength⟩ := (h.fits uploadId).publishing next hoperation
    exact h.publish (fits_state hidentity (fun _ => hlength) (fun _ => nofun) fun _ _ => nofun)
  · cases hstep

lemma Sound.step_abort (h : state.Sound)
    (hstep : state.step (.abort uploadId) = some state') : state'.Sound := by
  obtain ⟨session, hsession, hstep⟩ := Option.bind_eq_some_iff.mp hstep
  split_ifs at hstep
  cases hstatus : session.status with
  | «open» =>
    rw [hstatus] at hstep
    dsimp only at hstep
    split at hstep
    next aborting haborting =>
      obtain rfl := Option.some.inj hstep
      obtain ⟨hidentity, hstatus'⟩ := intoAborting_eq_ok haborting
      exact h.publish (fits_state (hidentity.trans (h.uploadId_eq hsession))
        (fun hopen => by rw [hstatus'] at hopen; cases hopen) (fun _ => nofun)
        fun hne => absurd hstatus' hne)
    · cases hstep
  | aborting =>
    rw [hstatus] at hstep
    obtain rfl := Option.some.inj hstep
    exact h.operate_releasing hsession hstatus _
  | sealing sealed =>
    rw [hstatus] at hstep
    cases hstep
  | sealed sealed =>
    rw [hstatus] at hstep
    cases hstep

lemma Sound.step_retire (h : state.Sound)
    (hstep : state.step (.retire uploadId) = some state') : state'.Sound := by
  unfold QuotaState.step at hstep
  dsimp only at hstep
  split at hstep
  next restart hoperation =>
    obtain rfl := Option.some.inj hstep
    refine h.publish (fits_tombstone (fun next => ?_) fun restart' => ?_)
    all_goals cases restart <;> nofun
  · cases hstep

lemma Sound.step_seal (h : state.Sound) {tokenExpiresAt : ℕ}
    (hstep : state.step (.seal uploadId contentId tokenExpiresAt) = some state') : state'.Sound := by
  obtain ⟨session, hsession, hstep⟩ := Option.bind_eq_some_iff.mp hstep
  split_ifs at hstep
  split at hstep
  · split at hstep
    next sealing hsealing =>
      obtain rfl := Option.some.inj hstep
      obtain ⟨hidentity, sealed, hstatus⟩ := intoSealing_eq_ok hsealing
      exact h.publish (fits_state (hidentity.trans (h.uploadId_eq hsession))
        (fun hopen => by rw [hstatus] at hopen; cases hopen) (fun _ => nofun) fun _ _ => nofun)
    · cases hstep
  · obtain rfl := Option.some.inj hstep
    have hidle := (h.fits uploadId).idle
    exact h.operate ⟨hidle.identity, hidle.covered, nofun, nofun⟩
  · cases hstep

lemma Sound.step_publishSealed (h : state.Sound)
    (hstep : state.step (.publishSealed uploadId) = some state') : state'.Sound := by
  obtain ⟨session, hsession, hstep⟩ := Option.bind_eq_some_iff.mp hstep
  split_ifs at hstep
  split at hstep
  next sealed hsealed =>
    obtain rfl := Option.some.inj hstep
    obtain ⟨hidentity, content, hstatus⟩ := intoSealed_eq_ok hsealed
    exact h.publish (fits_state (hidentity.trans (h.uploadId_eq hsession))
      (fun hopen => by rw [hstatus] at hopen; cases hopen) (fun _ => nofun) fun _ _ => nofun)
  · cases hstep

lemma Sound.step_setQuota (h : state.Sound) {limit : Option ℕ}
    (hstep : state.step (.setQuota domain limit) = some state') : state'.Sound := by
  unfold QuotaState.step at hstep
  dsimp only at hstep
  split at hstep
  next ledger' hset =>
    obtain rfl := Option.some.inj hstep
    exact h.relabel (h.balanced.setLimit hset) (reservations_of_setLimit hset)
  · obtain rfl := Option.some.inj hstep
    exact h

lemma Sound.step_sweep (h : state.Sound)
    (hstep : state.step (.sweep domain contentId) = some state') : state'.Sound := by
  unfold QuotaState.step at hstep
  dsimp only at hstep
  split at hstep
  next ledger' hreclaim =>
    obtain rfl := Option.some.inj hstep
    exact h.relabel (h.balanced.reclaim hreclaim) (reservations_of_reclaim hreclaim)
  · obtain rfl := Option.some.inj hstep
    exact h

/-- Every step keeps the invariant.

**Proof sketch.** A step is one publication, one transaction, or neither. The operation of an upload
says which transaction may come, so that a reservation is given up only when the upload is aborting
or sealing, and a longer state is published only after its bytes were reserved. -/
lemma Sound.step (h : state.Sound) (action : QuotaAction)
    (hstep : state.step action = some state') : state'.Sound := by
  cases action with
  | begin uploadId options =>
    unfold QuotaState.step at hstep
    dsimp only at hstep
    split_ifs at hstep
    obtain rfl := Option.some.inj hstep
    exact h.publish_initial options
  | beginAgain uploadId options =>
    obtain ⟨session, hsession, hstep⟩ := Option.bind_eq_some_iff.mp hstep
    split_ifs at hstep with hguard
    obtain rfl := Option.some.inj hstep
    exact h.operate_releasing hsession hguard.2 _
  | reserveInitial uploadId =>
    obtain ⟨session, hsession, hstep⟩ := Option.bind_eq_some_iff.mp hstep
    split_ifs at hstep
    obtain rfl := Option.some.inj hstep
    have hidle := (h.fits uploadId).idle
    refine h.reserve (fun ledger' hok => hidle.mono (reservedBytes_le_of_reserve hok uploadId)) ?_
    exact ⟨hidle.identity, hidle.covered, nofun, nofun⟩
  | resume uploadId =>
    obtain ⟨session, hsession, hstep⟩ := Option.bind_eq_some_iff.mp hstep
    split_ifs at hstep
    obtain rfl := Option.some.inj hstep
    have hidle := (h.fits uploadId).idle
    exact h.reserve (fun ledger' hok => hidle.mono (reservedBytes_le_of_reserve hok uploadId)) hidle
  | write uploadId incoming =>
    obtain ⟨session, hsession, hstep⟩ := Option.bind_eq_some_iff.mp hstep
    split_ifs at hstep
    split at hstep
    · cases hstep
    next next hnext =>
      obtain rfl := Option.some.inj hstep
      exact h.write hsession hnext
  | publishWrite uploadId => exact h.step_publishWrite hstep
  | abort uploadId => exact h.step_abort hstep
  | release uploadId =>
    obtain ⟨session, hsession, hstep⟩ := Option.bind_eq_some_iff.mp hstep
    split at hstep
    next restart hoperation =>
      obtain rfl := Option.some.inj hstep
      exact h.release hoperation
    · cases hstep
  | retire uploadId => exact h.step_retire hstep
  | restart uploadId =>
    unfold QuotaState.step at hstep
    dsimp only at hstep
    split at hstep
    next options hoperation =>
      obtain rfl := Option.some.inj hstep
      exact h.publish_initial options
    · cases hstep
  | «seal» uploadId contentId tokenExpiresAt => exact h.step_seal hstep
  | finalize uploadId =>
    obtain ⟨session, hsession, hstep⟩ := Option.bind_eq_some_iff.mp hstep
    split at hstep
    next sealed hoperation hstatus =>
      obtain rfl := Option.some.inj hstep
      exact h.finalize hsession hstatus
    · cases hstep
  | publishSealed uploadId => exact h.step_publishSealed hstep
  | prune uploadId =>
    obtain ⟨session, hsession, hstep⟩ := Option.bind_eq_some_iff.mp hstep
    split at hstep
    · split_ifs at hstep
      obtain rfl := Option.some.inj hstep
      exact h.publish (fits_tombstone (fun _ => nofun) fun _ => nofun)
    · cases hstep
  | setQuota storageDomainId limit => exact h.step_setQuota hstep
  | sweep storageDomainId contentId => exact h.step_sweep hstep
  | fail uploadId =>
    obtain rfl := Option.some.inj hstep
    exact h.operate (h.fits uploadId).idle
  | crash =>
    obtain rfl := Option.some.inj hstep
    exact ⟨h.balanced, fun uploadId => (h.fits uploadId).idle⟩

end Invariant

lemma sound_empty : empty.Sound :=
  ⟨QuotaLedger.balanced_empty, fun _ => ⟨nofun, nofun, nofun, nofun⟩⟩

/-- In every state that uploads, retries after crashes, changes of limits and completed sweeps lead
to: the counters of every domain are the sums of its records, no limit is exceeded, the reservation
of an open upload covers its length, and finalizing a seal never fails because of the limit. -/
theorem balanced_of_run {actions : List QuotaAction} {state : QuotaState}
    (hrun : Runs.run step empty actions = some state) :
    (∀ domain,
      (state.ledger.readContentPhysicalQuota domain).uploadReservedBytes =
        total (QuotaLedger.reservationWeight domain) state.ledger.reservations ∧
      (state.ledger.readContentPhysicalQuota domain).uniqueContentBytes =
        total (QuotaLedger.accountWeight domain) state.ledger.accounts ∧
      ∀ limit, (state.ledger.readContentPhysicalQuota domain).limit = some limit →
        (state.ledger.readContentPhysicalQuota domain).uniqueContentBytes +
          (state.ledger.readContentPhysicalQuota domain).uploadReservedBytes ≤ limit) ∧
    (∀ uploadId session, state.uploads uploadId = some (.state session) →
      session.status = .open → session.length ≤ reservedBytes state.ledger uploadId) ∧
    ∀ uploadId sealed limit unique reserved requested,
      state.ledger.finalizeContentUploadQuota uploadId sealed ≠
        .error (.physicalQuotaExceeded limit unique reserved requested) := by
  have hsound : state.Sound :=
    Runs.invariant_of_step (fun _ action _ hinv _ hstep => hinv.step action hstep) sound_empty hrun
      (Runs.meets_of_forall (fun _ _ => trivial) empty actions)
  refine ⟨fun domain => ⟨hsound.balanced.reserved domain, hsound.balanced.unique domain,
    (hsound.balanced.within domain).1⟩, fun uploadId session => (hsound.fits uploadId).covered
    session, fun uploadId sealed limit unique reserved requested heq => ?_⟩
  have hsettles := hsound.balanced.settles_finalize uploadId sealed
  rw [heq] at hsettles
  exact hsettles limit unique reserved requested rfl

def sampleOptions : ContentUploadOptions := ⟨⟨0⟩, 4, none, none⟩

/-- With a limit of ten bytes, one upload of five bytes is written, crashes, is resumed and sealed up
to the publication; another one writes four bytes and is refused seven more. -/
def sampleActions : List QuotaAction :=
  [.setQuota ⟨0⟩ (some 10), .begin ⟨1⟩ sampleOptions, .reserveInitial ⟨1⟩, .write ⟨1⟩ 5,
    .publishWrite ⟨1⟩, .begin ⟨2⟩ sampleOptions, .reserveInitial ⟨2⟩, .write ⟨2⟩ 4, .crash,
    .resume ⟨1⟩, .seal ⟨1⟩ ⟨7⟩ 100, .finalize ⟨1⟩, .write ⟨2⟩ 4, .publishWrite ⟨2⟩, .write ⟨2⟩ 7]

/-- After the sample run five bytes are accounted and four are reserved, as the sums say. -/
theorem balanced_of_sampleActions :
    ∃ state, Runs.run step empty sampleActions = some state ∧
      (state.ledger.readContentPhysicalQuota ⟨0⟩ = ⟨5, 4, some 10⟩ ∧
        (state.session ⟨2⟩).map UploadSessionState.length = some 4) ∧
      4 = total (QuotaLedger.reservationWeight ⟨0⟩) state.ledger.reservations ∧
      5 = total (QuotaLedger.accountWeight ⟨0⟩) state.ledger.accounts ∧
      4 ≤ reservedBytes state.ledger ⟨2⟩ := by
  have hvalue : (Runs.run step empty sampleActions).map (fun state =>
      (state.ledger.readContentPhysicalQuota ⟨0⟩,
        (state.session ⟨2⟩).map fun session => (session.length, session.status))) =
      some (⟨5, 4, some 10⟩, some (4, .open)) := by
    decide
  obtain ⟨state, hrun, hvalue⟩ := Option.map_eq_some_iff.mp hvalue
  obtain ⟨hquota, hsession⟩ := Prod.mk.inj hvalue
  obtain ⟨session, hsession, hlength⟩ := Option.map_eq_some_iff.mp hsession
  obtain ⟨hlength, hopen⟩ := Prod.mk.inj hlength
  obtain ⟨hsums, hcovered, -⟩ := balanced_of_run hrun
  obtain ⟨hreserved, hunique, -⟩ := hsums ⟨0⟩
  rw [hquota] at hreserved hunique
  refine ⟨state, hrun, ⟨hquota, ?_⟩, hreserved, hunique, ?_⟩
  · rw [hsession, Option.map_some, hlength]
  · rw [← hlength]
    exact hcovered ⟨2⟩ session (session_eq_some hsession) hopen

end QuotaState

end TrineKv.Content
