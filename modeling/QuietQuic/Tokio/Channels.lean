import QuietQuic.Tokio.Parked

/-!
# Where reply channels are

A reply channel travels with its command: it is in the command channel, parked at the `Slot` its
command belongs to, or used. This module says how each operation of `Parked` moves channels, apart
from what it does to the core.

* `onEvent_releases`: an event answers parked channels, from the front of their slot, and parks
  none.
* `applyCmd_moves`: a command is answered, after the parked channels it answers, or parked.
* `Releases.count`, `Parks.count`: the same as a count of one channel's places.
-/

namespace QuietQuic.Tokio

open QuietQuic.Lib QuietQuic.Proto

/-! ## Where a reply channel can be parked -/

/-- A place in `Parked`. -/
inductive Slot where
  | accept
  | write (id : StreamId)
  | read (id : StreamId)
  | fin (id : StreamId)
  deriving DecidableEq

/-- Only one channel fits: a later one replaces it. -/
def Slot.single : Slot → Bool
  | .write _ | .read _ => true
  | .accept | .fin _ => false

/-- The kind of reply a channel parked at a slot is answered with. -/
def Slot.Takes : Slot → Reply → Prop
  | .accept, .stream _ | .write _, .done _ | .fin _, .done _ | .read _, .bytes _ => True
  | _, _ => False

/-- The channel a command carries. -/
def Cmd.reply : Cmd → Option Token
  | .openBi t | .acceptBi t | .write _ _ t | .finish _ t | .waitFinished _ t | .reset _ _ t
  | .stop _ _ t | .readToEnd _ _ t | .read _ _ t => some t
  | .releaseSend _ | .close _ _ => none

/-- Where a command is parked when the core says "not right now". -/
def Cmd.slot : Cmd → Option Slot
  | .acceptBi _ => some .accept
  | .write id _ _ => some (.write id)
  | .waitFinished id _ => some (.fin id)
  | .readToEnd id _ _ | .read id _ _ => some (.read id)
  | _ => none

/-- The channels parked at a slot. -/
def Parked.tokens (p : Parked) : Slot → List Token
  | .accept => p.pendingAccepts
  | .write id => (p.blockedWrites.lookup id).toList.map PendingWrite.reply
  | .read id => (p.pendingReads.lookup id).toList.map PendingRead.reply
  | .fin id => (p.finWaiters.lookup id).getD []

theorem Parked.mem_tokens_read {p : Parked} {id : StreamId} {pending : PendingRead}
    (h : p.pendingReads.lookup id = some pending) : pending.reply ∈ p.tokens (.read id) := by
  simp [Parked.tokens, h]

/-- A reply is of the kind its command is answered with. -/
def Reply.Fits (r : Reply) (cmd : Cmd) : Prop :=
  match cmd.slot with
  | some σ => σ.Takes r
  | none =>
    match r, cmd with
    | .stream _, .openBi _ => True
    | .done _, .finish _ _ | .done _, .reset _ _ _ | .done _, .stop _ _ _ => True
    | _, _ => False

/-! ## How the driver's operations move channels -/

/-- An operation takes channels off the front of one slot and answers exactly those. -/
structure ReleasesAt (σ : Slot) (p p' : Parked) (sent : List (Token × Reply)) : Prop where
  takes : ∀ x ∈ sent, σ.Takes x.2
  split : p.tokens σ = sent.map Prod.fst ++ p'.tokens σ
  other : ∀ τ, τ ≠ σ → p'.tokens τ = p.tokens τ

/-- The same for any number of slots. -/
def Releases (p p' : Parked) (sent : List (Token × Reply)) : Prop :=
  ∃ (slots : List Slot) (out : Slot → List (Token × Reply)), slots.Nodup ∧
    sent = slots.flatMap out ∧ (∀ σ, ∀ x ∈ out σ, σ.Takes x.2) ∧
    ∀ σ, p.tokens σ = (if σ ∈ slots then (out σ).map Prod.fst else []) ++ p'.tokens σ

theorem Releases.none {p p' : Parked} (h : ∀ σ, p'.tokens σ = p.tokens σ) : Releases p p' [] :=
  ⟨[], fun _ => [], List.nodup_nil, rfl, by simp, fun σ => by simp [h]⟩

/-- Two slots, all channels of the first before those of the second. -/
theorem ReleasesAt.then {p p' p'' : Parked} {sent sent' : List (Token × Reply)} {σ σ' : Slot}
    (h : ReleasesAt σ p p' sent) (h' : ReleasesAt σ' p' p'' sent') (hne : σ ≠ σ') :
    Releases p p'' (sent ++ sent') := by
  refine ⟨[σ, σ'], fun τ => if τ = σ then sent else if τ = σ' then sent' else [], by simpa using hne,
    by simp [hne.symm], ?_, ?_⟩
  · intro τ x hx
    dsimp only at hx
    split at hx
    · rename_i heq
      exact heq ▸ h.takes x hx
    · split at hx
      · rename_i heq
        exact heq ▸ h'.takes x hx
      · exact absurd hx List.not_mem_nil
  · intro τ
    by_cases heq : τ = σ
    · subst heq
      simp [h.split, h'.other τ hne]
    · by_cases heq' : τ = σ'
      · subst heq'
        simp [heq, ← h.other τ heq, h'.split]
      · simp [heq, heq', h.other τ heq, h'.other τ heq']

theorem ReleasesAt.releases {p p' : Parked} {sent : List (Token × Reply)} {σ : Slot}
    (h : ReleasesAt σ p p' sent) : Releases p p' sent := by
  refine ⟨[σ], fun τ => if τ = σ then sent else [], List.nodup_singleton σ, by simp, ?_, ?_⟩
  · intro τ x hx
    dsimp only at hx
    split at hx
    · rename_i heq
      exact heq ▸ h.takes x hx
    · exact absurd hx List.not_mem_nil
  · intro τ
    by_cases heq : τ = σ
    · subst heq
      simp [h.split]
    · simp [heq, h.other τ heq]

section Slots

variable {Q : Quinn} (p : Parked) (id : StreamId)

theorem tokens_setReads (m : AMap StreamId PendingRead)
    (h : ∀ a, a ≠ id → m.lookup a = p.pendingReads.lookup a) (τ : Slot) (hτ : τ ≠ .read id) :
    Parked.tokens { p with pendingReads := m } τ = p.tokens τ := by
  cases τ with
  | read a =>
    simp only [Parked.tokens, h a fun ha => hτ (by rw [ha])]
  | _ => rfl

theorem tokens_setWrites (m : AMap StreamId PendingWrite)
    (h : ∀ a, a ≠ id → m.lookup a = p.blockedWrites.lookup a) (τ : Slot) (hτ : τ ≠ .write id) :
    Parked.tokens { p with blockedWrites := m } τ = p.tokens τ := by
  cases τ with
  | write a =>
    simp only [Parked.tokens, h a fun ha => hτ (by rw [ha])]
  | _ => rfl

theorem tokens_setWaiters (m : AMap StreamId (List Token))
    (h : ∀ a, a ≠ id → m.lookup a = p.finWaiters.lookup a) (τ : Slot) (hτ : τ ≠ .fin id) :
    Parked.tokens { p with finWaiters := m } τ = p.tokens τ := by
  cases τ with
  | fin a =>
    simp only [Parked.tokens, h a fun ha => hτ (by rw [ha])]
  | _ => rfl

theorem tokens_setAccepts (l : List Token) (τ : Slot) (hτ : τ ≠ .accept) :
    Parked.tokens { p with pendingAccepts := l } τ = p.tokens τ := by
  cases τ with
  | accept => exact absurd rfl hτ
  | _ => rfl

/-- A channel is parked at a slot: it replaces the one there, or joins the ones there. -/
def Parks (p p' : Parked) (σ : Slot) (t : Token) : Prop :=
  p'.tokens σ = (if σ.single then [] else p.tokens σ) ++ [t] ∧
    ∀ τ, τ ≠ σ → p'.tokens τ = p.tokens τ

/-- A read that is offered is answered, or parked under its channel. -/
theorem offerRead_moves (core : ConnState Q) (pending : PendingRead) :
    (p.offerRead core id pending).parked = p ∧
        (∃ answer, (p.offerRead core id pending).sent = [(pending.reply, .bytes answer)]) ∨
      (p.offerRead core id pending).sent = [] ∧
        Parks p (p.offerRead core id pending).parked (.read id) pending.reply := by
  unfold Parked.offerRead
  dsimp only
  split
  · rename_i answer hreply
    exact Or.inl ⟨rfl, answer, rfl⟩
  · rename_i hreply
    obtain ⟨taken, -, hcases, -⟩ := pumpRead_spec core id pending
    have hpending : (pumpRead core id pending).pending.reply = pending.reply := by
      rcases hcases with ⟨-, heq⟩ | heq | ⟨e, heq⟩
      · rw [heq]
      · exact absurd (hreply.symm.trans heq) (by simp)
      · exact absurd (hreply.symm.trans heq) (by simp)
    refine Or.inr ⟨rfl, ?_, tokens_setReads p id _ fun a ha => ?_⟩
    · simp [Parked.tokens, Slot.single, hpending]
    · exact AList.lookup_insert_ne ha

/-- A write that is offered is answered, or parked under its channel. -/
theorem offerWrite_moves (core : ConnState Q) (pending : PendingWrite) :
    (p.offerWrite core id pending).parked = p ∧
        (∃ answer, (p.offerWrite core id pending).sent = [(pending.reply, .done answer)]) ∨
      (p.offerWrite core id pending).sent = [] ∧
        Parks p (p.offerWrite core id pending).parked (.write id) pending.reply := by
  unfold Parked.offerWrite
  dsimp only
  split
  · rename_i answer hreply
    exact Or.inl ⟨rfl, answer, rfl⟩
  · refine Or.inr ⟨rfl, ?_, tokens_setWrites p id _ fun a ha => ?_⟩
    · simp [Parked.tokens, Slot.single, (pumpWrite_spec core id pending).2.2.2.1]
    · exact AList.lookup_insert_ne ha

/-- Offering what was parked alone at a slot answers it or parks it again. -/
theorem ReleasesAt.offered {p p₀ p' : Parked} {σ : Slot} {t : Token} {sent : List (Token × Reply)}
    (hσ : σ.single = true) (hp : p.tokens σ = [t]) (hp₀ : p₀.tokens σ = [])
    (hother : ∀ τ, τ ≠ σ → p₀.tokens τ = p.tokens τ)
    (h : p' = p₀ ∧ (∃ r, σ.Takes r ∧ sent = [(t, r)]) ∨ sent = [] ∧ Parks p₀ p' σ t) :
    ReleasesAt σ p p' sent := by
  rcases h with ⟨rfl, r, hr, rfl⟩ | ⟨rfl, hat, hrest⟩
  · exact ⟨by simpa using hr, by simp [hp, hp₀], hother⟩
  · refine ⟨by simp, ?_, fun τ hτ => (hrest τ hτ).trans (hother τ hτ)⟩
    rw [hat, hp, if_pos hσ]
    rfl

theorem onReadable_releases (core : ConnState Q) :
    ReleasesAt (.read id) p (p.onReadable core id).parked (p.onReadable core id).sent := by
  unfold Parked.onReadable
  split
  · exact ⟨by simp, rfl, fun _ _ => rfl⟩
  · rename_i pending hpending
    have hother := tokens_setReads p id (p.pendingReads.erase id)
      fun a ha => AList.lookup_erase_ne ha
    refine .offered (t := pending.reply) rfl (by simp [Parked.tokens, hpending])
      (by simp [Parked.tokens]) hother ?_
    rcases offerRead_moves { p with pendingReads := p.pendingReads.erase id } id core pending with
      ⟨hp, answer, hsent⟩ | h
    · exact Or.inl ⟨hp, .bytes answer, trivial, hsent⟩
    · exact Or.inr h

theorem onWritable_releases (core : ConnState Q) :
    ReleasesAt (.write id) p (p.onWritable core id).parked (p.onWritable core id).sent := by
  unfold Parked.onWritable
  split
  · exact ⟨by simp, rfl, fun _ _ => rfl⟩
  · rename_i pending hpending
    have hother := tokens_setWrites p id (p.blockedWrites.erase id)
      fun a ha => AList.lookup_erase_ne ha
    refine .offered (t := pending.reply) rfl (by simp [Parked.tokens, hpending])
      (by simp [Parked.tokens]) hother ?_
    rcases offerWrite_moves { p with blockedWrites := p.blockedWrites.erase id } id core pending with
      ⟨hp, answer, hsent⟩ | h
    · exact Or.inl ⟨hp, .done answer, trivial, hsent⟩
    · exact Or.inr h

/-- Every waiter of a stream is answered alike. -/
theorem reply_of_waiters {l : List Token} {r : Reply} {x : Token × Reply}
    (hx : x ∈ l.map fun t => (t, r)) : x.2 = r := by
  obtain ⟨t, -, rfl⟩ := List.mem_map.mp hx
  rfl

theorem waiters_releases (r : Reply) (hr : (Slot.fin id).Takes r) :
    ReleasesAt (.fin id) p { p with finWaiters := p.finWaiters.erase id }
      (((p.finWaiters.lookup id).getD []).map fun t => (t, r)) := by
  refine ⟨fun x hx => ?_, ?_, tokens_setWaiters p id _ fun a ha => AList.lookup_erase_ne ha⟩
  · rw [reply_of_waiters hx]
    exact hr
  · simp [Parked.tokens, Function.comp_def]

theorem failBlockedWrite_releases (e : ConnError) :
    ReleasesAt (.write id) p (p.failBlockedWrite id e).1 (p.failBlockedWrite id e).2 := by
  refine ⟨fun x hx => ?_, ?_, tokens_setWrites p id _ fun a ha => AList.lookup_erase_ne ha⟩
  · obtain ⟨w, -, rfl⟩ := List.mem_map.mp hx
    trivial
  · simp [Parked.tokens, Parked.failBlockedWrite, Function.comp_def]

theorem failPendingRead_releases (e : ConnError) :
    ReleasesAt (.read id) p (p.failPendingRead id e).1 (p.failPendingRead id e).2 := by
  refine ⟨fun x hx => ?_, ?_, tokens_setReads p id _ fun a ha => AList.lookup_erase_ne ha⟩
  · obtain ⟨w, -, rfl⟩ := List.mem_map.mp hx
    trivial
  · simp [Parked.tokens, Parked.failPendingRead, Function.comp_def]

/-- The loop of `on_stream_opened` answers parked accepts from the front. -/
theorem acceptParked_tokens : ∀ (l : List Token) (core : ConnState Q),
    l = (Parked.acceptParked core l).2.2.1.map Prod.fst ++ (Parked.acceptParked core l).2.1 ∧
      ∀ x ∈ (Parked.acceptParked core l).2.2.1, Slot.accept.Takes x.2
  | [], _ => ⟨rfl, by simp [Parked.acceptParked]⟩
  | t :: rest, core => by
    unfold Parked.acceptParked
    dsimp only
    split
    · obtain ⟨hsplit, htakes⟩ := acceptParked_tokens rest core.acceptBi.2
      refine ⟨by rw [List.map_cons, List.cons_append, ← hsplit], fun x hx => ?_⟩
      rcases List.mem_cons.mp hx with rfl | hx
      · trivial
      · exact htakes x hx
    · exact ⟨rfl, by simp⟩
    · refine ⟨rfl, fun x hx => ?_⟩
      rw [List.mem_singleton.mp hx]
      trivial

theorem onStreamOpened_releases (core : ConnState Q) :
    ReleasesAt .accept p (p.onStreamOpened core).parked (p.onStreamOpened core).sent := by
  obtain ⟨hsplit, htakes⟩ := acceptParked_tokens p.pendingAccepts core
  exact ⟨htakes, hsplit, tokens_setAccepts p _⟩

/-- **What an event does to the channels**: it answers parked ones, and parks none. -/
theorem onEvent_releases (core : ConnState Q) (e : Event) :
    Releases p (p.onEvent core e).parked (p.onEvent core e).sent := by
  cases e with
  | connected ch => exact .none fun _ => rfl
  | connectionLost ch reason => exact .none fun _ => rfl
  | streamOpened ch id dir => exact (onStreamOpened_releases p core).releases
  | streamReadable ch id => exact (onReadable_releases p id core).releases
  | streamWritable ch id => exact (onWritable_releases p id core).releases
  | streamFinAcked ch id => exact (waiters_releases p id (.done (.ok ())) trivial).releases
  | streamStopped ch id code =>
    exact (waiters_releases p id (.done (.error (.stopped code))) trivial).then
      (onWritable_releases _ id core) (by simp)

/-- **What a command does to the channels**: it is parked, or it is answered, after the parked
channels it answers. -/
theorem applyCmd_moves (core : ConnState Q) (cmd : Cmd) (now : Instant) :
    (∃ sent own, (p.applyCmd core cmd now).sent = sent ++ own ∧
        Releases p (p.applyCmd core cmd now).parked sent ∧ own.map Prod.fst = cmd.reply.toList ∧
        ∀ x ∈ own, x.2.Fits cmd) ∨
      (p.applyCmd core cmd now).sent = [] ∧ ∃ σ t, cmd.slot = some σ ∧ cmd.reply = some t ∧
        Parks p (p.applyCmd core cmd now).parked σ t := by
  cases cmd with
  | openBi t =>
    exact Or.inl ⟨[], [(t, .stream core.openBi.1)], rfl, .none fun _ => rfl, rfl,
      fun x hx => by rw [List.mem_singleton.mp hx]; trivial⟩
  | acceptBi t =>
    simp only [Parked.applyCmd]
    split
    · exact Or.inl ⟨[], _, rfl, .none fun _ => rfl, rfl,
        fun x hx => by rw [List.mem_singleton.mp hx]; trivial⟩
    · exact Or.inr ⟨rfl, .accept, t, rfl, rfl, rfl, tokens_setAccepts p _⟩
    · exact Or.inl ⟨[], _, rfl, .none fun _ => rfl, rfl,
        fun x hx => by rw [List.mem_singleton.mp hx]; trivial⟩
  | write id data t =>
    rcases offerWrite_moves p id core { data, offset := 0, reply := t } with
      ⟨hp, answer, hsent⟩ | ⟨hsent, hparks⟩
    · refine Or.inl ⟨[], [(t, .done answer)], hsent, .none fun _ => ?_, rfl,
        fun x hx => by rw [List.mem_singleton.mp hx]; trivial⟩
      exact congrArg (fun p => Parked.tokens p _) hp
    · exact Or.inr ⟨hsent, .write id, t, rfl, rfl, hparks⟩
  | finish id t =>
    exact Or.inl ⟨[], [(t, .done (core.streamFinish id).1)], rfl, .none fun _ => rfl, rfl,
      fun x hx => by rw [List.mem_singleton.mp hx]; trivial⟩
  | waitFinished id t =>
    simp only [Parked.applyCmd]
    split
    case h_3 =>
      refine Or.inr ⟨rfl, .fin id, t, rfl, rfl, ?_, tokens_setWaiters p id _ fun a ha => ?_⟩
      · simp [Parked.tokens, Slot.single]
      · exact AList.lookup_insert_ne ha
    all_goals exact Or.inl ⟨[], _, rfl, .none fun _ => rfl, rfl,
      fun x hx => by rw [List.mem_singleton.mp hx]; trivial⟩
  | reset id code t =>
    simp only [Parked.applyCmd]
    split
    · refine Or.inl ⟨_, [(t, .done (.ok ()))], rfl, ?_, rfl,
        fun x hx => by rw [List.mem_singleton.mp hx]; trivial⟩
      exact (waiters_releases p id (.done (.error .closedStream)) trivial).then
        (failBlockedWrite_releases _ id .closedStream) (by simp)
    · exact Or.inl ⟨[], _, rfl, .none fun _ => rfl, rfl,
        fun x hx => by rw [List.mem_singleton.mp hx]; trivial⟩
  | stop id code t =>
    simp only [Parked.applyCmd]
    split
    · exact Or.inl ⟨_, [(t, .done (.ok ()))], rfl,
        (failPendingRead_releases p id .closedStream).releases, rfl,
        fun x hx => by rw [List.mem_singleton.mp hx]; trivial⟩
    · exact Or.inl ⟨[], _, rfl, .none fun _ => rfl, rfl,
        fun x hx => by rw [List.mem_singleton.mp hx]; trivial⟩
  | releaseSend id => exact Or.inl ⟨[], [], rfl, .none fun _ => rfl, rfl, by simp⟩
  | readToEnd id limit t =>
    rcases offerRead_moves p id core { buf := [], endLimit := some limit, max := none, reply := t }
      with ⟨hp, answer, hsent⟩ | ⟨hsent, hparks⟩
    · refine Or.inl ⟨[], [(t, .bytes answer)], hsent, .none fun _ => ?_, rfl,
        fun x hx => by rw [List.mem_singleton.mp hx]; trivial⟩
      exact congrArg (fun p => Parked.tokens p _) hp
    · exact Or.inr ⟨hsent, .read id, t, rfl, rfl, hparks⟩
  | read id len t =>
    rcases offerRead_moves p id core
      { buf := [], endLimit := none, max := some (max len 1), reply := t } with
      ⟨hp, answer, hsent⟩ | ⟨hsent, hparks⟩
    · refine Or.inl ⟨[], [(t, .bytes answer)], hsent, .none fun _ => ?_, rfl,
        fun x hx => by rw [List.mem_singleton.mp hx]; trivial⟩
      exact congrArg (fun p => Parked.tokens p _) hp
    · exact Or.inr ⟨hsent, .read id, t, rfl, rfl, hparks⟩
  | close code reason => exact Or.inl ⟨[], [], rfl, .none fun _ => rfl, rfl, by simp⟩

end Slots

/-! ## Counting a channel's places -/

/-- Every parked channel is at the slot of its command. -/
def Typed (slotOf : Token → Option Slot) (p : Parked) : Prop :=
  ∀ σ, ∀ t ∈ p.tokens σ, slotOf t = some σ

/-- How often a channel is parked. -/
def held (slotOf : Token → Option Slot) (p : Parked) (t : Token) : Nat :=
  match slotOf t with
  | some σ => (p.tokens σ).count t
  | none => 0

theorem count_flatMap {slots : List Slot} {out : Slot → List Token} {σ : Slot} {t : Token}
    (hout : ∀ τ ∈ slots, τ ≠ σ → t ∉ out τ) (hnd : slots.Nodup) :
    (slots.flatMap out).count t = if σ ∈ slots then (out σ).count t else 0 := by
  induction slots with
  | nil => rfl
  | cons τ slots ih =>
    obtain ⟨hτ, hnd⟩ := List.nodup_cons.mp hnd
    rw [List.flatMap_cons, List.count_append,
      ih (fun τ' hτ' => hout τ' (List.mem_cons_of_mem _ hτ')) hnd]
    by_cases heq : σ = τ
    · subst heq
      simp [hτ]
    · have hzero : (out τ).count t = 0 :=
        List.count_eq_zero.mpr (hout τ List.mem_cons_self (Ne.symm heq))
      simp [hzero, heq]

section Counting

variable {slotOf : Token → Option Slot} {p p' : Parked}

theorem Releases.typed {sent : List (Token × Reply)} (h : Releases p p' sent)
    (hp : Typed slotOf p) : Typed slotOf p' := by
  obtain ⟨slots, out, -, -, -, hsplit⟩ := h
  intro σ t ht
  exact hp σ t (by rw [hsplit]; exact List.mem_append_right _ ht)

/-- What was parked is answered, or still parked. -/
theorem Releases.mem {sent : List (Token × Reply)} (h : Releases p p' sent) {σ : Slot} {t : Token}
    (ht : t ∈ p.tokens σ) : t ∈ sent.map Prod.fst ∨ t ∈ p'.tokens σ := by
  obtain ⟨slots, out, -, rfl, -, hsplit⟩ := h
  rw [hsplit] at ht
  refine (List.mem_append.mp ht).imp_left fun hmem => ?_
  split at hmem
  · rename_i hσ
    rw [List.map_flatMap]
    exact List.mem_flatMap.mpr ⟨σ, hσ, hmem⟩
  · exact absurd hmem List.not_mem_nil

/-- An answered channel was parked at a slot that takes the answer. -/
theorem Releases.takes {sent : List (Token × Reply)} (h : Releases p p' sent)
    (hp : Typed slotOf p) {x : Token × Reply} (hx : x ∈ sent) :
    ∃ σ, slotOf x.1 = some σ ∧ x.1 ∈ p.tokens σ ∧ σ.Takes x.2 := by
  obtain ⟨slots, out, -, rfl, htakes, hsplit⟩ := h
  obtain ⟨σ, hσ, hx⟩ := List.mem_flatMap.mp hx
  have hmem : x.1 ∈ p.tokens σ := by
    rw [hsplit, if_pos hσ]
    exact List.mem_append_left _ (List.mem_map_of_mem hx)
  exact ⟨σ, hp σ x.1 hmem, hmem, htakes σ x hx⟩

/-- What leaves its slot is answered. -/
theorem Releases.count {sent : List (Token × Reply)} (h : Releases p p' sent)
    (hp : Typed slotOf p) (t : Token) :
    (sent.map Prod.fst).count t + held slotOf p' t = held slotOf p t := by
  obtain ⟨slots, out, hnd, rfl, -, hsplit⟩ := h
  have hout : ∀ τ ∈ slots, slotOf t ≠ some τ → t ∉ (out τ).map Prod.fst := by
    intro τ hτ hne hmem
    refine hne (hp τ t ?_)
    rw [hsplit, if_pos hτ]
    exact List.mem_append_left _ hmem
  rw [List.map_flatMap]
  unfold held
  cases hslot : slotOf t with
  | none =>
    refine Nat.add_eq_zero_iff.mpr ⟨List.count_eq_zero.mpr fun hmem => ?_, rfl⟩
    obtain ⟨τ, hτ, hmem⟩ := List.mem_flatMap.mp hmem
    exact hout τ hτ (by simp [hslot]) hmem
  | some σ =>
    dsimp only
    rw [count_flatMap (fun τ hτ hne => hout τ hτ (by simpa [hslot] using hne.symm)) hnd,
      hsplit σ, List.count_append]
    split <;> simp

theorem Parks.typed {σ : Slot} {t : Token} (h : Parks p p' σ t) (hp : Typed slotOf p)
    (ht : slotOf t = some σ) : Typed slotOf p' := by
  intro τ a ha
  by_cases heq : τ = σ
  · subst heq
    rw [h.1, List.mem_append, List.mem_singleton] at ha
    rcases ha with ha | rfl
    · split at ha
      · exact absurd ha List.not_mem_nil
      · exact hp τ a ha
    · exact ht
  · rw [h.2 τ heq] at ha
    exact hp τ a ha

/-- A channel that is parked takes one place; one it replaces loses its own. -/
theorem Parks.count {σ : Slot} {t : Token} (h : Parks p p' σ t) (ht : slotOf t = some σ)
    (a : Token) :
    held slotOf p' a =
      (if σ.single = true ∧ slotOf a = some σ then 0 else held slotOf p a) + [t].count a := by
  unfold held
  cases hslot : slotOf a with
  | none =>
    have hne : t ≠ a := fun heq => by simp [← heq, ht] at hslot
    simp [hne]
  | some τ =>
    by_cases heq : τ = σ
    · subst heq
      simp only [h.1, List.count_append, and_true]
      split <;> simp
    · have hne : t ≠ a := fun hta => heq (Option.some.inj (by rw [← hslot, ← hta, ht]))
      simp [heq, h.2 τ heq, hne]

end Counting

end QuietQuic.Tokio
