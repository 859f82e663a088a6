import TrineKv.ObjectWal.FrontDoor

/-!
# Refused commits stay out of the log

A commit that fails with `runtimeBusy` or `invalidOptions` gives up its sequence, so its frame must
not reach the log any more. An asynchronous commit takes its frame back when the queue is full. A
synchronous commit leaves it in the buffer, and the next sender publishes it.

## Main results

* `Substrate.keepsRefused_of_run`: refused commits are not logged.
-/

namespace TrineKv.ObjectWal

open List Option

open Wal

variable {operations : List BatchOperation} {accepts : List ObjectWalAccept}

def Role.isCommit : Role → Bool
  | .commit _ => true
  | .enqueue _ | .background => false

namespace Substrate

/-- No refused commit is in the log. -/
def KeepsRefused (state : Substrate) : Prop :=
  ∀ accept ∈ state.published, accept.sequence ∉ state.refused

/-- A synchronous commit finds room in the queue, and a put that fails with an error that gives up a
sequence has not moved the head. -/
def findsRoom (state : Substrate) : Action → Prop
  | .send => ∀ sender ∈ state.sender, sender.role.isCommit → state.queue.length < queueCapacity
  | .complete (.publishFailed error true) => error.isRefusal = false
  | _ => True

/-! ## Frames on their way -/

def sequences (accepts : List ObjectWalAccept) : List UInt64 :=
  accepts.map ObjectWalAccept.sequence

@[simp]
lemma sequences_nil : sequences [] = [] := rfl

@[simp]
lemma sequences_cons (accept : ObjectWalAccept) (accepts : List ObjectWalAccept) :
    sequences (accept :: accepts) = accept.sequence :: sequences accepts := rfl

@[simp]
lemma sequences_append (left right : List ObjectWalAccept) :
    sequences (left ++ right) = sequences left ++ sequences right := map_append

lemma mem_sequences {sequence : UInt64} :
    sequence ∈ sequences accepts ↔ ∃ accept ∈ accepts, accept.sequence = sequence := mem_map

lemma mem_sequences_of_mem {accept : ObjectWalAccept}
    (h : accept ∈ accepts) : accept.sequence ∈ sequences accepts := mem_map_of_mem h

lemma subperm_sequences {left right : List ObjectWalAccept} (h : left.Subperm right) :
    (sequences left).Subperm (sequences right) := by
  obtain ⟨accepts, hperm, hsublist⟩ := h
  exact ⟨sequences accepts, hperm.map _, hsublist.map _⟩

def frame : LaneCommand → List ObjectWalAccept
  | .accept accept => [accept]
  | .persist | .rewrite _ | .release => []

def group (state : Substrate) : List ObjectWalAccept :=
  match state.phase with
  | .collecting group | .publishing group => group
  | .idle | .failed => []

/-- The frames between the buffer and the log. -/
def inFlight (state : Substrate) : List ObjectWalAccept :=
  state.group ++ (state.deferred.toList.flatMap frame ++ state.queue.flatMap frame)

/-- The frames that have left the buffer and may be or become part of the log. -/
def tracked (state : Substrate) : List ObjectWalAccept := state.inFlight ++ state.published

def Sender.taken (sender : Sender) : ℕ := sender.sent + if sender.waiting then 1 else 0

def unsent (state : Substrate) : List ObjectWalAccept :=
  match state.sender with
  | none => state.buffered
  | some sender => state.buffered.drop (Sender.taken sender)

/-- The worker has stopped. -/
def Failed (state : Substrate) : Prop := state.phase = .failed

/-! ## The invariant -/

/-- The buffer is in order and ends with the commit that holds the lock, every frame is in one place,
and refused commits are in none. When the worker has stopped, only the log counts. -/
structure Sound (state : Substrate) : Prop where
  bounded : ∀ accept ∈ state.buffered ++ state.tracked, accept.sequence ≤ state.lastSequence
  boundedRefused : ∀ sequence ∈ state.refused, sequence ≤ state.lastSequence
  increasing : state.buffered.Pairwise fun left right => left.sequence < right.sequence
  last : ∀ sequence ∈ state.commit, ∀ accept ∈ state.buffered.getLast?, accept.sequence = sequence
  holder : ∀ sender ∈ state.sender, ∀ sequence,
    sender.role = .commit sequence ∨ sender.role = .enqueue sequence →
      state.commit = some sequence
  own : ∀ sender ∈ state.sender, ∀ sequence, sender.role = .enqueue sequence →
    sender.waiting = false ∧
      (sender.sent < state.buffered.length → sequence ∉ sequences state.published)
  distinct : ¬state.Failed → (sequences state.tracked).Nodup ∧
    ∀ accept ∈ state.unsent, accept.sequence ∉ sequences state.tracked
  refused : ∀ sequence ∈ state.refused, sequence ∉ sequences state.published ∧
    (¬state.Failed → sequence ∉ sequences state.buffered ∧ sequence ∉ sequences state.inFlight)

namespace Sound

variable {state state' : Substrate}
  {accept : ObjectWalAccept} {sequence : UInt64} {sender : Sender}
  {group : List ObjectWalAccept} {command : LaneCommand}

lemma opened : Substrate.opened.Sound :=
  ⟨nofun, nofun, .nil, nofun, nofun, nofun, fun _ => ⟨nodup_nil, nofun⟩, nofun⟩

lemma keepsRefused (h : state.Sound) : state.KeepsRefused := fun _ hmem hrefused =>
  (h.refused _ hrefused).1 (mem_sequences_of_mem hmem)

lemma sortAccepts_buffered (h : state.Sound) :
    WalState.sortAccepts state.buffered = state.buffered := by
  have hpairwise : state.buffered.Pairwise fun left right => sequenceLe left.batch right.batch :=
    h.increasing.imp fun hlt => UInt64.le_of_lt hlt
  exact hpairwise.insertionSort_eq

/-- The worker moves frames, or drops some from the log: nothing else changes. -/
lemma of_perm (h : state.Sound) (hlast : state'.lastSequence = state.lastSequence)
    (hcommit : state'.commit = state.commit) (hbuffered : state'.buffered = state.buffered)
    (hsender : state'.sender = state.sender) (hrefused : state'.refused = state.refused)
    (hfailed : state'.Failed ↔ state.Failed) (hinFlight : state'.inFlight.Subperm state.inFlight)
    (hpublished : state'.published.Sublist state.published) : state'.Sound where
  bounded accept hmem := by
    rw [hlast]
    refine h.bounded accept ?_
    rw [hbuffered, tracked, mem_append, mem_append] at hmem
    rw [tracked, mem_append, mem_append]
    exact hmem.imp_right (Or.imp (fun hin => hinFlight.subset hin) fun hin => hpublished.subset hin)
  boundedRefused := hlast ▸ hrefused ▸ h.boundedRefused
  increasing := hbuffered ▸ h.increasing
  last := hcommit ▸ hbuffered ▸ h.last
  holder := hcommit ▸ hsender ▸ h.holder
  own sender hmem sequence hrole := by
    rw [hsender] at hmem
    rw [hbuffered]
    refine (h.own sender hmem sequence hrole).imp_right fun hown hlt hin => hown hlt ?_
    exact (hpublished.map _).subset hin
  distinct hnot := by
    obtain ⟨hnodup, hunsent⟩ := h.distinct (hfailed.not.mp hnot)
    have hsub : (sequences state'.tracked).Subperm (sequences state.tracked) := by
      rw [tracked, tracked, sequences_append, sequences_append]
      exact (subperm_sequences hinFlight).append (hpublished.map _).subperm
    obtain ⟨sublist, hperm, hsublist⟩ := id hsub
    refine ⟨hperm.nodup_iff.mp (hnodup.sublist hsublist), fun accept hmem hin => ?_⟩
    have hsame : state'.unsent = state.unsent := by rw [unsent, unsent, hsender, hbuffered]
    exact hunsent accept (hsame ▸ hmem) (hsub.subset hin)
  refused sequence hmem := by
    obtain ⟨hlog, hflight⟩ := h.refused sequence (hrefused ▸ hmem)
    refine ⟨fun hin => hlog ((hpublished.map _).subset hin), fun hnot => ?_⟩
    rw [hbuffered]
    exact (hflight (hfailed.not.mp hnot)).imp_right fun hout hin =>
      hout ((subperm_sequences hinFlight).subset hin)

/-! ### Senders -/

lemma getLast_mem_drop {index : ℕ}
    (hlast : accepts.getLast? = some accept) (hlt : index < accepts.length) :
    accept ∈ accepts.drop index := by
  refine mem_of_getLast? ?_
  rw [List.getLast?_drop, if_neg (by omega), hlast]

lemma not_mem_eraseP
    (h : accepts.Pairwise fun left right => left.sequence < right.sequence) :
    sequence ∉ sequences (accepts.eraseP fun accept => decide (accept.sequence = sequence)) := by
  induction h with
  | nil => simp
  | @cons first rest hfirst _ ih =>
    by_cases heq : first.sequence = sequence
    · rw [eraseP_cons_of_pos (by simpa using heq), mem_sequences]
      rintro ⟨accept, hmem, hsequence⟩
      have hlt := hfirst accept hmem
      rw [hsequence, heq] at hlt
      exact UInt64.lt_irrefl _ hlt
    · rw [eraseP_cons_of_neg (by simpa using heq), sequences_cons, mem_cons, not_or]
      exact ⟨fun h => heq h.symm, ih⟩

lemma exists_last (h : state.Sound) (hsender : state.sender = some sender)
    (hrole : sender.role = .commit sequence ∨ sender.role = .enqueue sequence)
    (hlt : sender.sent < state.buffered.length) :
    ∃ accept, state.buffered.getLast? = some accept ∧ accept.sequence = sequence := by
  have hne : state.buffered ≠ [] := ne_nil_of_length_pos (by omega)
  have hlast := List.getLast?_eq_some_getLast hne
  exact ⟨_, hlast, h.last sequence (h.holder sender hsender sequence hrole) _ hlast⟩

lemma refuse (h : state.Sound) {error : Error}
    (hle : sequence ≤ state.lastSequence)
    (hout : error.isRefusal = true → sequence ∉ sequences state.published ∧
      (¬state.Failed → sequence ∉ sequences state.buffered ∧ sequence ∉ sequences state.inFlight)) :
    (state.refuse sequence error).Sound := by
  rw [Substrate.refuse]
  split_ifs with hrefusal
  · exact {
      bounded := h.bounded
      boundedRefused := forall_mem_cons.mpr ⟨hle, h.boundedRefused⟩
      increasing := h.increasing
      last := h.last
      holder := h.holder
      own := h.own
      distinct := h.distinct
      refused := forall_mem_cons.mpr ⟨hout hrefusal, h.refused⟩ }
  · exact h

lemma letGo (h : state.Sound) {rest : List ObjectWalAccept} {commit : Option UInt64}
    (hrest : rest.Sublist state.buffered)
    (hunsent : ¬state.Failed → ∀ accept ∈ rest, accept ∈ state.unsent)
    (hcommit : ∀ sequence ∈ commit, ∀ accept ∈ rest.getLast?, accept.sequence = sequence) :
    { state with buffered := rest, sender := none, commit := commit }.Sound where
  bounded accept hmem := by
    refine h.bounded accept ?_
    rw [mem_append] at hmem ⊢
    exact hmem.imp_left fun hin => hrest.subset hin
  boundedRefused := h.boundedRefused
  increasing := h.increasing.sublist hrest
  last := hcommit
  holder := nofun
  own := nofun
  distinct hnot :=
    ⟨(h.distinct hnot).1, fun accept hmem => (h.distinct hnot).2 accept (hunsent hnot accept hmem)⟩
  refused sequence hmem := by
    refine (h.refused sequence hmem).imp_right fun hflight hnot => ?_
    exact (hflight hnot).imp_left fun hout hin => hout ((hrest.map _).subset hin)

/-- A sender fails that does not wait, or because the worker has stopped. A commit is only refused
when its frame is not in the log, and a synchronous one only when the worker has stopped. -/
lemma fail (h : state.Sound) {error : Error} (hsender : state.sender = some sender)
    (hwaiting : ¬state.Failed → sender.waiting = false)
    (hlt : sender.sent < state.buffered.length)
    (hrefusal : error.isRefusal = true → ∀ sequence, (sender.role = .commit sequence →
      state.Failed ∧ sequence ∉ sequences state.published)) :
    (state.fail sender error).Sound := by
  have hrest : (state.buffered.drop sender.sent).Sublist state.buffered := drop_sublist _ _
  have hunsent : ¬state.Failed → state.unsent = state.buffered.drop sender.sent := by
    intro hnot
    simp [unsent, hsender, Sender.taken, hwaiting hnot]
  rw [Substrate.fail]
  cases hrole : sender.role with
  | commit sequence =>
    obtain ⟨accept, hlast, hown⟩ := h.exists_last hsender (Or.inl hrole) hlt
    have hletGo := @letGo state h _ none hrest (fun hnot => by rw [hunsent hnot]; exact fun _ h => h)
      nofun
    refine hletGo.refuse ?_ fun hyes => ?_
    · rw [← hown]
      exact h.bounded accept (mem_append_left _ (mem_of_getLast? hlast))
    · obtain ⟨hfailed, hout⟩ := hrefusal hyes sequence hrole
      exact ⟨hout, fun hnot => absurd hfailed hnot⟩
  | enqueue sequence =>
    obtain ⟨accept, hlast, hown⟩ := h.exists_last hsender (Or.inr hrole) hlt
    obtain ⟨-, hlog⟩ := h.own sender hsender sequence hrole
    have hletGo := @letGo state h ((state.buffered.drop sender.sent).eraseP fun accept =>
      decide (accept.sequence = sequence)) none (eraseP_sublist.trans hrest)
      (fun hnot => by rw [hunsent hnot]; exact fun _ hmem => mem_of_mem_eraseP hmem) nofun
    refine hletGo.refuse ?_ fun _ => ⟨hlog hlt, fun hnot => ⟨?_, ?_⟩⟩
    · rw [← hown]
      exact h.bounded accept (mem_append_left _ (mem_of_getLast? hlast))
    · exact not_mem_eraseP (h.increasing.sublist hrest)
    · have hmem := getLast_mem_drop hlast hlt
      rw [← hunsent hnot] at hmem
      intro hin
      refine (h.distinct hnot).2 accept hmem ?_
      rw [hown, tracked, sequences_append]
      exact mem_append_left _ hin
  | background =>
    refine @letGo state h _ state.commit hrest
      (fun hnot => by rw [hunsent hnot]; exact fun _ h => h) ?_
    rw [List.getLast?_drop, if_neg (by omega)]
    exact h.last

lemma send (h : state.Sound)
    (hsender : state.sender = some sender) (hwaiting : sender.waiting = false)
    (haccept : state.buffered[sender.sent]? = some accept) {sender' : Sender}
    (hrole : sender'.role = sender.role) (hsent : sender.sent ≤ sender'.sent)
    (htaken : Sender.taken sender' = sender.sent + 1)
    (henqueue : ∀ sequence, sender.role = .enqueue sequence → sender'.waiting = false) :
    { state with
      queue := state.queue ++ [LaneCommand.accept accept]
      sender := some sender' }.Sound := by
  obtain ⟨hlt, rfl⟩ := List.getElem?_eq_some_iff.mp haccept
  have hinFlight : Substrate.inFlight { state with
      queue := state.queue ++ [LaneCommand.accept state.buffered[sender.sent]]
      sender := some sender' } = state.inFlight ++ [state.buffered[sender.sent]] := by
    simp [Substrate.inFlight, Substrate.group, frame]
  have hmem : state.buffered[sender.sent] ∈ state.buffered := getElem_mem hlt
  have hdrop := drop_eq_getElem_cons hlt
  have hunsent : state.unsent = state.buffered.drop sender.sent := by
    simp [unsent, hsender, Sender.taken, hwaiting]
  refine ⟨fun accept hin => ?_, h.boundedRefused, h.increasing, h.last, ?_, ?_, fun hnot => ?_,
    fun sequence hrefused => ?_⟩
  · refine h.bounded accept ?_
    simp only [tracked, hinFlight, mem_append, mem_singleton] at hin ⊢
    rcases hin with hin | (hin | rfl) | hin
    · exact .inl hin
    · exact .inr (Or.inl hin)
    · exact .inl hmem
    · exact .inr (Or.inr hin)
  · rintro _ ⟨⟩ sequence hrole'
    exact h.holder sender hsender sequence (hrole ▸ hrole')
  · rintro _ ⟨⟩ sequence hrole'
    rw [hrole] at hrole'
    exact ⟨henqueue sequence hrole', fun hlt' =>
      (h.own sender hsender sequence hrole').2 (Nat.lt_of_le_of_lt hsent hlt')⟩
  · obtain ⟨hnodup, hout⟩ := h.distinct hnot
    rw [hunsent, hdrop] at hout
    obtain ⟨hfirst, hrest⟩ := forall_mem_cons.mp hout
    have hperm : (sequences (Substrate.tracked { state with
        queue := state.queue ++ [LaneCommand.accept state.buffered[sender.sent]]
        sender := some sender' })).Perm
        (state.buffered[sender.sent].sequence :: sequences state.tracked) := by
      simp only [tracked, hinFlight, sequences_append, sequences_cons, append_assoc,
        singleton_append]
      exact perm_middle
    refine ⟨hperm.nodup_iff.mpr (nodup_cons.mpr ⟨hfirst, hnodup⟩), fun accept hin => ?_⟩
    rw [hperm.mem_iff, mem_cons, not_or]
    replace hin : accept ∈ state.buffered.drop (sender.sent + 1) := htaken ▸ hin
    have hordered := h.increasing.sublist (drop_sublist sender.sent _)
    rw [hdrop, pairwise_cons] at hordered
    exact ⟨(UInt64.ne_of_lt (hordered.1 accept hin)).symm, hrest accept hin⟩
  · obtain ⟨hlog, hflight⟩ := h.refused sequence hrefused
    refine ⟨hlog, fun hnot => ⟨(hflight hnot).1, ?_⟩⟩
    rw [hinFlight, sequences_append, mem_append, not_or]
    refine ⟨(hflight hnot).2, fun hin => (hflight hnot).1 ?_⟩
    rw [sequences_cons, sequences_nil, mem_singleton] at hin
    rw [hin]
    exact mem_sequences_of_mem hmem

/-! ### Commits -/

lemma lt_succ (hmax : state.lastSequence.toNat ≠ maxSequence) (hle : sequence ≤ state.lastSequence) :
    sequence < state.lastSequence + 1 := by
  rw [UInt64.lt_iff_toNat_lt, toNat_succ hmax]
  exact Nat.lt_succ_of_le (UInt64.le_iff_toNat_le.mp hle)

lemma succ_not_mem (h : state.Sound) (hmax : state.lastSequence.toNat ≠ maxSequence) :
    state.lastSequence + 1 ∉ sequences state.buffered ∧
      state.lastSequence + 1 ∉ sequences state.tracked := by
  rw [← not_or, ← mem_append, ← sequences_append]
  intro hmem
  obtain ⟨accept, hin, heq⟩ := mem_sequences.mp hmem
  have hlt := lt_succ hmax (h.bounded accept hin)
  rw [heq] at hlt
  exact UInt64.lt_irrefl _ hlt

lemma reserve (h : state.Sound) (hmax : state.lastSequence.toNat ≠ maxSequence) :
    { state with lastSequence := state.lastSequence + 1 }.Sound :=
  { h with
    bounded := fun accept hmem => UInt64.le_of_lt (lt_succ hmax (h.bounded accept hmem))
    boundedRefused := fun sequence hmem =>
      UInt64.le_of_lt (lt_succ hmax (h.boundedRefused sequence hmem)) }

/-- A new frame is put into the buffer. -/
lemma push (h : state.Sound) (hmax : state.lastSequence.toNat ≠ maxSequence)
    (hsender : state.sender = none) (hcommit : state.commit = none)
    (haccept : accept.sequence = state.lastSequence + 1) :
    { state with
      lastSequence := state.lastSequence + 1
      buffered := state.buffered ++ [accept] }.Sound := by
  have hunsent : state.unsent = state.buffered := by rw [unsent, hsender]
  refine ⟨fun other hmem => ?_, (h.reserve hmax).boundedRefused, ?_, ?_, ?_, ?_, fun hnot => ?_,
    fun sequence hrefused => ?_⟩
  · rcases mem_append.mp hmem with hmem | hmem
    · rcases mem_append.mp hmem with hmem | hmem
      · exact (h.reserve hmax).bounded other (mem_append_left _ hmem)
      · obtain rfl := mem_singleton.mp hmem
        exact haccept ▸ UInt64.le_refl _
    · exact (h.reserve hmax).bounded other (mem_append_right _ hmem)
  · refine pairwise_append.mpr ⟨h.increasing, pairwise_singleton _ _, ?_⟩
    intro left hleft right hright
    obtain rfl := mem_singleton.mp hright
    rw [haccept]
    exact lt_succ hmax (h.bounded left (mem_append_left _ hleft))
  · intro sequence hmem
    cases hcommit.symm.trans hmem
  · intro sender hmem
    cases hsender.symm.trans hmem
  · intro sender hmem
    cases hsender.symm.trans hmem
  · refine ⟨(h.distinct hnot).1, fun other hmem => ?_⟩
    replace hmem : other ∈ state.buffered ++ [accept] := by
      simpa [unsent, hsender] using hmem
    rcases mem_append.mp hmem with hmem | hmem
    · exact (h.distinct hnot).2 other (hunsent ▸ hmem)
    · obtain rfl := mem_singleton.mp hmem
      rw [haccept]
      exact (h.succ_not_mem hmax).2
  · refine (h.refused sequence hrefused).imp_right fun hflight hnot => ?_
    refine (hflight hnot).imp_left fun hout => ?_
    show sequence ∉ sequences (state.buffered ++ [accept])
    rw [sequences_append, mem_append, not_or]
    refine ⟨hout, fun hin => ?_⟩
    rw [sequences_cons, sequences_nil, mem_singleton] at hin
    have hlt := lt_succ hmax (h.boundedRefused sequence hrefused)
    rw [hin, haccept] at hlt
    exact UInt64.lt_irrefl _ hlt

lemma push_eq_some (h : state.Sound)
    {result : Option UInt64} (hpush : state.push operations = some (state', result)) :
    state'.Sound ∧ state'.sender = none ∧ state'.commit = none ∧
      ∀ sequence ∈ result, sequence ∉ sequences state'.published ∧
        state'.buffered.getLast?.map ObjectWalAccept.sequence = some sequence := by
  unfold Substrate.push at hpush
  split_ifs at hpush with hbusy hmax
  simp only [Bool.or_eq_true, not_or, Bool.not_eq_true, isSome_eq_false_iff,
    isNone_iff_eq_none] at hbusy
  obtain ⟨hcommit, hsender⟩ := hbusy
  obtain ⟨hfreshBuffered, hfresh⟩ := h.succ_not_mem hmax
  rw [tracked, sequences_append, mem_append, not_or] at hfresh
  simp only at hpush
  split at hpush
  · next error herror =>
    cases hpush
    refine ⟨?_, ?_, ?_, nofun⟩
    · exact (h.reserve hmax).refuse (UInt64.le_refl _)
        fun _ => ⟨hfresh.2, fun _ => ⟨hfreshBuffered, hfresh.1⟩⟩
    · rw [Substrate.refuse]
      split_ifs <;> exact hsender
    · rw [Substrate.refuse]
      split_ifs <;> exact hcommit
  · next accept haccept =>
    cases hpush
    have hsequence : accept.sequence = state.lastSequence + 1 :=
      congrArg WalBatch.sequence (ObjectWalAccept.ofBatch_eq_ok haccept)
    refine ⟨h.push hmax hsender hcommit hsequence, hsender, hcommit, ?_⟩
    rintro _ ⟨⟩
    exact ⟨hfresh.2, by simp [hsequence]⟩

lemma hold (h : state.Sound) (hsender : state.sender = none) {role : Role}
    (hrole : ∀ sequence, role = .commit sequence ∨ role = .enqueue sequence →
      state.commit = some sequence)
    (howned : ∀ sequence, role = .enqueue sequence → sequence ∉ sequences state.published) :
    { state with sender := some ⟨role, 0, false⟩ }.Sound := by
  have hunsent : state.unsent = state.buffered := by rw [unsent, hsender]
  refine ⟨h.bounded, h.boundedRefused, h.increasing, h.last, ?_, ?_, fun hnot => ?_, h.refused⟩
  · rintro _ ⟨⟩ sequence hmem
    exact hrole sequence hmem
  · rintro _ ⟨⟩ sequence hmem
    exact ⟨rfl, fun _ => howned sequence hmem⟩
  · refine ⟨(h.distinct hnot).1, fun accept hmem => (h.distinct hnot).2 accept ?_⟩
    rw [hunsent]
    exact hmem

lemma lock (h : state.Sound) (hsender : state.sender = none)
    (hlast : state.buffered.getLast?.map ObjectWalAccept.sequence = some sequence) :
    { state with commit := some sequence }.Sound := by
  refine { h with last := ?_, holder := ?_ }
  · rintro _ ⟨⟩ accept hmem
    rw [hmem, map_some] at hlast
    exact Option.some.inj hlast
  · intro sender hmem
    cases hsender.symm.trans hmem

/-! ### The worker -/

lemma stop (h : state.Sound) {queue : List LaneCommand} {deferred : Option LaneCommand}
    (hframes : ∀ accept ∈ deferred.toList.flatMap frame ++ queue.flatMap frame,
      accept ∈ state.inFlight) :
    { state with phase := .failed, queue := queue, deferred := deferred }.Sound := by
  refine ⟨fun accept hmem => h.bounded accept ?_, h.boundedRefused, h.increasing, h.last, h.holder,
    h.own, fun hnot => absurd rfl hnot, fun sequence hmem =>
      ⟨(h.refused sequence hmem).1, fun hnot => absurd rfl hnot⟩⟩
  rcases mem_append.mp hmem with hmem | hmem
  · exact mem_append_left _ hmem
  · rcases mem_append.mp hmem with hmem | hmem
    · exact mem_append_right _ (mem_append_left _ (hframes accept hmem))
    · exact mem_append_right _ (mem_append_right _ hmem)

lemma publish (h : state.Sound) {phase : WorkerPhase}
    (hphase : state.phase = .publishing group) (hidle : phase = .idle ∨ phase = .failed) :
    { state with phase := phase, published := state.published ++ group }.Sound := by
  have hnot : ¬state.Failed := by
    rw [Failed, hphase]
    nofun
  obtain ⟨hnodup, hunsent⟩ := h.distinct hnot
  have hinFlight : state.inFlight = group ++
      (state.deferred.toList.flatMap frame ++ state.queue.flatMap frame) := by
    rw [inFlight, Substrate.group, hphase]
  have hinFlight' : Substrate.inFlight { state with
      phase := phase, published := state.published ++ group } =
      state.deferred.toList.flatMap frame ++ state.queue.flatMap frame := by
    rcases hidle with rfl | rfl <;> rfl
  have hperm : (Substrate.tracked { state with
      phase := phase, published := state.published ++ group }).Perm state.tracked := by
    rw [tracked, tracked, hinFlight', hinFlight, append_assoc group]
    refine List.Perm.trans ?_ perm_append_comm
    simp only [append_assoc]
    exact List.Perm.refl _
  have hgroup : ∀ sequence ∈ sequences group, sequence ∈ sequences state.tracked := by
    intro sequence hmem
    rw [tracked, hinFlight, sequences_append, sequences_append, append_assoc]
    exact mem_append_left _ hmem
  refine ⟨fun accept hmem => h.bounded accept ?_, h.boundedRefused, h.increasing, h.last, h.holder,
    fun sender hsender sequence hrole => ?_, fun _ => ⟨?_, fun accept hmem hin => ?_⟩,
    fun sequence hmem => ⟨?_, fun _ => ?_⟩⟩
  · rw [mem_append] at hmem ⊢
    exact hmem.imp_right hperm.mem_iff.mp
  · obtain ⟨hwaiting, hlog⟩ := h.own sender hsender sequence hrole
    refine ⟨hwaiting, fun hlt => ?_⟩
    show sequence ∉ sequences (state.published ++ group)
    rw [sequences_append, mem_append, not_or]
    refine ⟨hlog hlt, fun hin => ?_⟩
    obtain ⟨accept, hlast, rfl⟩ := h.exists_last hsender (Or.inr hrole) hlt
    refine hunsent accept ?_ (hgroup _ hin)
    have hsender' : state.sender = some sender := hsender
    rw [unsent, hsender']
    simp only [Sender.taken, hwaiting]
    exact getLast_mem_drop hlast hlt
  · exact (hperm.map _).nodup_iff.mpr hnodup
  · exact hunsent accept hmem ((hperm.map _).mem_iff.mp hin)
  · obtain ⟨hlog, hflight⟩ := h.refused sequence hmem
    show sequence ∉ sequences (state.published ++ group)
    rw [sequences_append, mem_append, not_or]
    refine ⟨hlog, fun hin => (hflight hnot).2 ?_⟩
    rw [hinFlight, sequences_append]
    exact mem_append_left _ hin
  · obtain ⟨-, hflight⟩ := h.refused sequence hmem
    refine (hflight hnot).imp_right fun hout hin => hout ?_
    rw [hinFlight'] at hin
    rw [hinFlight, sequences_append]
    exact mem_append_right _ hin

lemma nextCommand_eq_some
    (hnext : state.nextCommand = some (command, state')) :
    state'.phase = state.phase ∧ state'.published = state.published ∧
      state'.lastSequence = state.lastSequence ∧ state'.commit = state.commit ∧
      state'.buffered = state.buffered ∧ state'.sender = state.sender ∧
      state'.refused = state.refused ∧
      state.deferred.toList.flatMap frame ++ state.queue.flatMap frame = frame command ++
        (state'.deferred.toList.flatMap frame ++ state'.queue.flatMap frame) := by
  unfold Substrate.nextCommand at hnext
  split at hnext
  · next command' hdeferred =>
    cases hnext
    simp [hdeferred]
  · next command' queue hdeferred hqueue =>
    cases hnext
    simp [hdeferred, hqueue]
  · cases hnext

lemma serve (h : state.Sound) (hnext : state.nextCommand = some (command, state'))
    (hframe : frame command = []) :
    state'.Sound ∧ { state' with phase := .failed }.Sound := by
  obtain ⟨hphase, hpublished, hlast, hcommit, hbuffered, hsender, hrefused, hframes⟩ :=
    nextCommand_eq_some hnext
  rw [hframe, nil_append] at hframes
  have hinFlight : state'.inFlight = state.inFlight := by
    rw [inFlight, inFlight, group, group, hphase, hframes]
  have hsound : state'.Sound := h.of_perm hlast hcommit hbuffered hsender hrefused
    (by rw [Failed, Failed, hphase]) (hinFlight ▸ List.Subperm.refl _)
      (hpublished ▸ List.Sublist.refl _)
  exact ⟨hsound, hsound.stop fun accept hmem => mem_append_right _ hmem⟩

lemma answer (h : state.Sound) {results : UInt64 → Option (Except Error Unit)}
    (hresults : ∀ sender accept error, state.sender = some sender → sender.waiting = true →
      state.buffered[sender.sent]? = some accept → results accept.sequence = some (.error error) →
      state.Failed ∧ (error.isRefusal = true → ∀ sequence, sender.role = .commit sequence →
        sequence ∉ sequences state.published)) :
    (state.answer results).Sound := by
  unfold Substrate.answer
  split
  · exact h
  · next sender hsender =>
    split_ifs with hwaiting
    · split
      · exact h
      · next accept haccept =>
        obtain ⟨hlt, -⟩ := List.getElem?_eq_some_iff.mp haccept
        split
        · exact h
        · next hresult =>
          have htaken : Sender.taken { sender with sent := sender.sent + 1, waiting := false } =
              Sender.taken sender := by
            simp [Sender.taken, hwaiting]
          refine { h with holder := ?_, own := ?_, distinct := fun hnot => ?_ }
          · rintro _ ⟨⟩ sequence hrole
            exact h.holder sender hsender sequence hrole
          · rintro _ ⟨⟩ sequence hrole
            have hcontra := (h.own sender hsender sequence hrole).1
            rw [hwaiting] at hcontra
            cases hcontra
          · obtain ⟨hnodup, hunsent⟩ := h.distinct hnot
            refine ⟨hnodup, fun other hmem => hunsent other ?_⟩
            simp only [unsent, hsender, htaken] at hmem ⊢
            exact hmem
        · next error hresult =>
          obtain ⟨hfailed, hlog⟩ := hresults sender accept error hsender hwaiting haccept hresult
          exact h.fail hsender (fun hnot => absurd hfailed hnot) hlt
            fun hrefusal sequence hrole => ⟨hfailed, hlog hrefusal sequence hrole⟩
    · exact h

/-- A synchronous commit whose group fails is not in the log.

**Proof sketch.** Its own frame is the last one of the buffer, so it is the frame that it waits for,
which is in the group, or it has not been sent. -/
lemma not_mem_published (h : state.Sound)
    (hphase : state.phase = .publishing group)
    (hsender : state.sender = some sender) (hwaiting : sender.waiting = true)
    (haccept : state.buffered[sender.sent]? = some accept)
    (hgroup : accept.sequence ∈ sequences group)
    (hrole : sender.role = .commit sequence) : sequence ∉ sequences state.published := by
  have hnot : ¬state.Failed := by
    rw [Failed, hphase]
    nofun
  obtain ⟨hnodup, hunsent⟩ := h.distinct hnot
  obtain ⟨hlt, rfl⟩ := List.getElem?_eq_some_iff.mp haccept
  obtain ⟨last, hlast, rfl⟩ := h.exists_last hsender (Or.inl hrole) hlt
  have hmem := getLast_mem_drop hlast hlt
  rw [drop_eq_getElem_cons hlt] at hmem
  rw [tracked, inFlight, Substrate.group, hphase] at hnodup
  rcases mem_cons.mp hmem with rfl | hmem
  · intro hin
    simp only [sequences_append] at hnodup
    exact (nodup_append.mp hnodup).2.2 _ (mem_append_left _ hgroup) _ hin rfl
  · intro hin
    refine hunsent last ?_ ?_
    · simp only [unsent, hsender, Sender.taken, hwaiting, if_true]
      exact hmem
    · rw [tracked, sequences_append]
      exact mem_append_right _ hin

lemma complete (h : state.Sound) {outcome : GroupOutcome}
    (hphase : state.phase = .publishing group) (hguard : state.findsRoom (.complete outcome)) :
    ({ state with
      phase := phaseAfter outcome
      published := state.published ++ applies group outcome }.answer
        (results group outcome)).Sound := by
  have hmem : ∀ {sequence result}, results group outcome sequence = some result →
      sequence ∈ sequences group := by
    intro sequence result hresult
    by_contra hout
    have hnone : results group outcome sequence = none := if_neg hout
    cases hnone.symm.trans hresult
  have hstopped : { state with phase := .failed }.Sound :=
    h.stop fun accept hin => mem_append_right _ hin
  cases outcome with
  | published =>
    refine (h.publish hphase (Or.inl rfl)).answer fun sender accept error _ _ _ hresult => ?_
    simp only [results] at hresult
    split_ifs at hresult
    cases hresult
  | refreshFailed error =>
    simp only [applies, append_nil]
    refine hstopped.answer fun sender accept error hsender hwaiting haccept hresult => ⟨rfl, ?_⟩
    exact fun _ sequence hrole =>
      h.not_mem_published hphase hsender hwaiting haccept (hmem hresult) hrole
  | publishFailed error applied =>
    cases applied with
    | false =>
      simp only [applies, append_nil]
      refine hstopped.answer fun sender accept error hsender hwaiting haccept hresult => ⟨rfl, ?_⟩
      exact fun _ sequence hrole =>
        h.not_mem_published hphase hsender hwaiting haccept (hmem hresult) hrole
    | true =>
      refine (h.publish hphase (Or.inr rfl)).answer fun sender accept error' _ _ _ hresult =>
        ⟨rfl, fun hrefusal => ?_⟩
      -- The head was moved, so the error does not give up a sequence.
      simp only [results] at hresult
      split_ifs at hresult
      · cases hresult
        cases hrefusal.symm.trans hguard
      · cases hresult
        cases hrefusal

lemma reject (h : state.Sound) (hphase : state.phase = .failed)
    (hnext : state.nextCommand = some (command, state')) : state'.Sound := by
  obtain ⟨hphase', hpublished, hlast, hcommit, hbuffered, hsender, hrefused, hframes⟩ :=
    nextCommand_eq_some hnext
  refine h.of_perm hlast hcommit hbuffered hsender hrefused (by rw [Failed, Failed, hphase']) ?_
    (hpublished ▸ List.Sublist.refl _)
  refine List.Sublist.subperm ?_
  rw [inFlight, inFlight, group, group, hphase', hphase, hframes]
  exact sublist_append_right _ _

lemma step_acceptCommit (h : state.Sound)
    {durability : DurabilityMode}
    (hstep : state.step (.acceptCommit operations durability) = some state') : state'.Sound := by
  simp only [Substrate.step] at hstep
  split at hstep
  · cases hstep
    exact h
  · cases hstep
  · next pushed _ hpush =>
    cases hstep
    exact (h.push_eq_some hpush).1
  · next pushed sequence _ hpush =>
    obtain ⟨hpushed, hsender, hcommit, hlast⟩ := h.push_eq_some hpush
    split_ifs at hstep
    · cases hstep
      exact hpushed
    · cases hstep
      exact hpushed.lock hsender (hlast sequence rfl).2

lemma step_enqueueCommit (h : state.Sound)
    {durability : DurabilityMode}
    (hstep : state.step (.enqueueCommit operations durability) = some state') : state'.Sound := by
  simp only [Substrate.step] at hstep
  split at hstep
  · cases hstep
    exact h
  · cases hstep
  · next pushed _ hpush =>
    cases hstep
    exact (h.push_eq_some hpush).1
  · next pushed sequence _ hpush =>
    obtain ⟨hpushed, hsender, hcommit, hlast⟩ := h.push_eq_some hpush
    obtain ⟨hlog, hown⟩ := hlast sequence rfl
    simp only [hpushed.sortAccepts_buffered] at hstep
    rw [if_neg (not_not.mpr hown)] at hstep
    split_ifs at hstep
    · cases hstep
      exact hpushed
    · cases hstep
      refine (hpushed.lock hsender hown).hold hsender ?_ ?_
      · rintro _ (hrole | hrole) <;> cases hrole
        rfl
      · rintro _ ⟨⟩
        exact hlog

lemma step_flushCommit (h : state.Sound)
    (hstep : state.step .flushCommit = some state') : state'.Sound := by
  simp only [Substrate.step] at hstep
  split at hstep
  · next sequence hcommit hsender =>
    cases hstep
    rw [h.sortAccepts_buffered]
    refine h.hold hsender ?_ nofun
    rintro _ (hrole | hrole) <;> cases hrole
    exact hcommit
  · cases hstep

lemma step_send (h : state.Sound) (hguard : state.findsRoom .send)
    (hstep : state.step .send = some state') : state'.Sound := by
  simp only [Substrate.step] at hstep
  split at hstep
  · cases hstep
  · next sender hsender =>
    by_cases hwaiting : sender.waiting = true
    · rw [if_pos hwaiting] at hstep
      cases hstep
    rw [if_neg hwaiting] at hstep
    rw [Bool.not_eq_true] at hwaiting
    split at hstep
    · cases hstep
    · next accept haccept =>
      obtain ⟨hlt, -⟩ := List.getElem?_eq_some_iff.mp haccept
      split_ifs at hstep with hroom
      · cases hrole : sender.role with
        | enqueue sequence =>
          rw [hrole] at hstep
          cases hstep
          exact h.send hsender hwaiting haccept hrole.symm (Nat.le_succ _)
            (by simp [Sender.taken, hwaiting]) fun _ _ => hwaiting
        | commit sequence =>
          rw [hrole] at hstep
          cases hstep
          exact h.send hsender hwaiting haccept hrole.symm (Nat.le_refl _) rfl (by simp [hrole])
        | background =>
          rw [hrole] at hstep
          cases hstep
          exact h.send hsender hwaiting haccept hrole.symm (Nat.le_refl _) rfl (by simp [hrole])
      · cases hstep
        exact h.fail hsender (fun _ => hwaiting) hlt fun _ sequence hrole =>
          absurd (hguard sender hsender (by rw [hrole]; rfl)) hroom

lemma step_finish (h : state.Sound)
    (hstep : state.step .finish = some state') : state'.Sound := by
  simp only [Substrate.step] at hstep
  split at hstep
  · cases hstep
  · next sender hsender =>
    split_ifs at hstep with hbusy
    split at hstep
    all_goals
      cases hstep
      exact h.letGo (nil_sublist _) (fun _ => nofun) nofun

lemma step_enqueue (h : state.Sound)
    (hstep : state.step (.enqueue command) = some state') : state'.Sound := by
  simp only [Substrate.step] at hstep
  have hkeeps : frame command = [] →
      { state with queue := state.queue ++ [command] }.Sound := by
    intro hframe
    refine h.of_perm rfl rfl rfl rfl rfl Iff.rfl (List.Perm.subperm ?_) (List.Sublist.refl _)
    simp [inFlight, group, hframe]
  split at hstep
  · cases hstep
  all_goals
    split_ifs at hstep
    cases hstep
    exact hkeeps rfl

lemma step_receive (h : state.Sound)
    (hstep : state.step .receive = some state') : state'.Sound := by
  simp only [Substrate.step] at hstep
  split at hstep
  · next hphase =>
    split at hstep
    · next accept rest hnext =>
      cases hstep
      obtain ⟨hphase', hpublished, hlast, hcommit, hbuffered, hsender, hrefused, hframes⟩ :=
        nextCommand_eq_some hnext
      refine h.of_perm hlast hcommit hbuffered hsender hrefused ?_ ?_
        (hpublished ▸ List.Sublist.refl _)
      · simp [Failed, hphase]
      · refine List.Perm.subperm ?_
        simp [inFlight, Substrate.group, hphase, hframes, frame]
    · cases hstep
  · next group hphase =>
    split at hstep
    · cases hstep
    · next command queue hqueue =>
      have hdefer : { state with
          queue := queue, deferred := some command, phase := .publishing group }.Sound := by
        refine h.of_perm rfl rfl rfl rfl rfl ?_ ?_ (List.Sublist.refl _)
        · simp [Failed, hphase]
        · refine List.Sublist.subperm ?_
          simp [inFlight, Substrate.group, hphase, hqueue]
      split at hstep
      · next accept =>
        split_ifs at hstep
        · cases hstep
          refine h.of_perm rfl rfl rfl rfl rfl ?_ ?_ (List.Sublist.refl _)
          · simp [Failed, hphase]
          · refine List.Perm.subperm ?_
            simp only [inFlight, Substrate.group, hphase, hqueue, flatMap_cons, frame,
              append_assoc]
            exact (perm_append_comm_assoc _ _ _).append_left _
        · cases hstep
          exact hdefer
      all_goals
        cases hstep
        exact hdefer
  · cases hstep
  · cases hstep

lemma step_timeout (h : state.Sound)
    (hstep : state.step .timeout = some state') : state'.Sound := by
  simp only [Substrate.step] at hstep
  split at hstep
  · next group hphase hqueue =>
    cases hstep
    refine h.of_perm rfl rfl rfl rfl rfl ?_ ?_ (List.Sublist.refl _)
    · simp [Failed, hphase]
    · refine List.Perm.subperm ?_
      simp [inFlight, Substrate.group, hphase]
  · cases hstep

lemma step_serve (h : state.Sound) {succeeds : Bool}
    (hstep : state.step (.serve succeeds) = some state') : state'.Sound := by
  simp only [Substrate.step] at hstep
  split at hstep
  · split at hstep
    · next rest hnext =>
      obtain ⟨hsound, hstopped⟩ := h.serve hnext rfl
      split_ifs at hstep <;> cases hstep
      · exact hsound
      · exact hstopped
    · next replayFloor rest hnext =>
      obtain ⟨hsound, hstopped⟩ := h.serve hnext rfl
      split_ifs at hstep <;> cases hstep
      · exact hsound.of_perm rfl rfl rfl rfl rfl Iff.rfl (List.Subperm.refl _) filter_sublist
      · exact hstopped
    · next rest hnext =>
      cases hstep
      exact (h.serve hnext rfl).2
    · cases hstep
  · cases hstep

lemma step_reject (h : state.Sound)
    (hstep : state.step .reject = some state') : state'.Sound := by
  simp only [Substrate.step] at hstep
  split at hstep
  · next hphase =>
    split at hstep
    · cases hstep
    · next accept rest hnext =>
      cases hstep
      have hfailed : rest.Failed := (nextCommand_eq_some hnext).1.trans hphase
      refine (h.reject hphase hnext).answer fun sender other error _ _ _ hresult =>
        ⟨hfailed, fun hrefusal => ?_⟩
      split_ifs at hresult
      cases hresult
      cases hrefusal
    · next command rest hne hnext =>
      cases hstep
      exact h.reject hphase hnext
  · cases hstep

lemma step (h : state.Sound) {action : Action} (hguard : state.findsRoom action)
    (hstep : state.step action = some state') : state'.Sound := by
  cases action with
  | acceptCommit operations durability => exact h.step_acceptCommit hstep
  | enqueueCommit operations durability => exact h.step_enqueueCommit hstep
  | flushCommit => exact h.step_flushCommit hstep
  | flushBackground =>
    simp only [Substrate.step] at hstep
    split at hstep
    · next hsender =>
      cases hstep
      rw [h.sortAccepts_buffered]
      exact h.hold hsender (by rintro _ (hrole | hrole) <;> cases hrole) nofun
    · cases hstep
  | send => exact h.step_send hguard hstep
  | finish => exact h.step_finish hstep
  | enqueue command => exact h.step_enqueue hstep
  | receive => exact h.step_receive hstep
  | timeout => exact h.step_timeout hstep
  | complete outcome =>
    simp only [Substrate.step] at hstep
    split at hstep
    · next group hphase =>
      cases hstep
      exact h.complete hphase hguard
    · cases hstep
  | serve succeeds => exact h.step_serve hstep
  | reject => exact h.step_reject hstep

end Sound

/-! ## Runs -/

/-- In every run of synchronous and asynchronous commits with any durability, of persists, rewrites
and releases and of the worker, in which synchronous commits find room in the queue, a commit that
fails with `runtimeBusy` or `invalidOptions` is never part of the log.

**Proof sketch.** Every step that meets the condition keeps every frame in one place, and the frames
of refused commits in none. -/
theorem keepsRefused_of_run (state : Substrate) (actions : List Action)
    (hrun : Runs.run step opened actions = some state)
    (hmeets : Runs.Meets step findsRoom opened actions) : state.KeepsRefused := by
  have hsound : state.Sound :=
    Runs.invariant_of_step (fun _ _ _ h hguard hstep => h.step hguard hstep) .opened hrun hmeets
  exact hsound.keepsRefused

instance (state : Substrate) : DecidablePred state.findsRoom := fun action => by
  unfold findsRoom
  split <;> infer_instance

def deletion : List BatchOperation := [.delete "b" [7]]

def enters : List Action := [.enqueueCommit deletion .flush, .send, .finish]

/-- A worker that is idle publishes one frame. -/
def publishes : List Action := [.receive, .timeout, .complete .published]

/-- The queue is full when a commit comes, the worker publishes what is in the queue, and another
synchronous commit follows. -/
def behindFullQueue (commit : List Action) : List Action :=
  (List.replicate queueCapacity enters).flatten ++ commit ++
    List.replicate queueCapacity .receive ++ [.timeout, .complete .published] ++
    [.acceptCommit deletion .flush, .flushCommit, .send] ++ publishes

theorem asyncBehindFullQueue_keepsRefused :
    ∃ state, Runs.run step opened (behindFullQueue [.enqueueCommit deletion .flush, .send]) =
        some state ∧ state.refused = [65] ∧ state.KeepsRefused := by
  have hrun : (Runs.run step opened (behindFullQueue [.enqueueCommit deletion .flush, .send])).map
      (fun state => state.refused) = some [65] := by decide +kernel
  obtain ⟨state, hrun, hrefused⟩ := map_eq_some_iff.mp hrun
  exact ⟨state, hrun, hrefused, keepsRefused_of_run state _ hrun (by decide +kernel)⟩

/-- A synchronous commit that finds the queue full is refused, and the next commit publishes it. -/
theorem syncBehindFullQueue_not_keepsRefused :
    ∃ state, Runs.run step opened (behindFullQueue
        [.acceptCommit deletion .flush, .flushCommit, .send]) = some state ∧
      state.refused = [65] ∧ ¬state.KeepsRefused := by
  have hrun : (Runs.run step opened (behindFullQueue
      [.acceptCommit deletion .flush, .flushCommit, .send])).map
        (fun state => (state.refused, decide (65 ∈ sequences state.published))) =
      some ([65], true) := by decide +kernel
  obtain ⟨state, hrun, houtcome⟩ := map_eq_some_iff.mp hrun
  obtain ⟨hrefused, hpublished⟩ := Prod.mk.inj houtcome
  refine ⟨state, hrun, hrefused, fun hkeeps => ?_⟩
  obtain ⟨accept, hmem, heq⟩ := mem_sequences.mp (of_decide_eq_true hpublished)
  exact hkeeps accept hmem (by simp [heq, hrefused])

end Substrate

end TrineKv.ObjectWal
