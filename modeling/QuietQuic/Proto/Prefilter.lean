import QuietQuic.Lib.Window
import QuietQuic.Proto.Selector

/-!
# The cloaking pre-filter and its replay guards

Model of `proto/src/replay.rs` (`ReplayGuard`) and of `Endpoint::prefilter` / `select_psk`
(`proto/src/endpoint.rs`), over the list of the clients' PSKs and the index-aligned list of their
guards. The wall-clock minute `now_minutes` reads is an argument of each call, so a run is a list
of `(minute, datagram)` pairs and the minutes may go in any direction.

`reaches` is the part of the pre-filter before the guard: well-formed, fresh, and the first
matching PSK. A guard forgets every entry more than `WINDOW_MINUTES` below the reading it is
consulted at, whatever was read before; `Lib.Window` says what such a set holds.

* `prefilter_admits_iff`: with non-decreasing readings, what is admitted is exactly the image of
  `buildDcid` that is fresh, selects that client first, and was not admitted before; no DCID is
  admitted twice although entries are purged.
* `admissions_nodup_iff`: for readings in any order, no (client, nonce, freshness) is admitted
  twice exactly when no guard is consulted past an entry's window between two datagrams that
  carry the entry. `purge_then_step_back` is a run where it is.
-/

namespace QuietQuic.Proto

open QuietQuic.Lib

/-! ## The replay guard -/

/-- `ReplayGuard`. -/
structure ReplayGuard where
  window : UInt32
  seen : Finset (Bytes 8 × UInt32)
  deriving DecidableEq

/-- `ReplayGuard::new`. -/
def ReplayGuard.new (windowMinutes : UInt32) : ReplayGuard := ⟨windowMinutes, ∅⟩

/-- `ReplayGuard::check_and_record`: purge below the cutoff, then insert; true when the entry is
new. -/
def ReplayGuard.checkAndRecord (guard : ReplayGuard) (nonce : Bytes 8) (freshness now : UInt32) :
    Bool × ReplayGuard :=
  let cutoff := saturatingSub now guard.window
  let seen := guard.seen.filter fun e => cutoff ≤ e.2
  (decide ((nonce, freshness) ∉ seen), { guard with seen := insert (nonce, freshness) seen })

/-- The stamp of an entry, for `Lib.Window`: its freshness minute. -/
def stampOf (entry : Bytes 8 × UInt32) : Nat := entry.2.toNat

theorem cutoff_le_iff {now window f : UInt32} :
    saturatingSub now window ≤ f ↔ now.toNat ≤ f.toNat + window.toNat := by
  rw [UInt32.le_iff_toNat_le, toNat_saturatingSub]
  omega

/-- The purge is `Lib.forget`. -/
theorem purge_eq_forget (guard : ReplayGuard) (now : UInt32) :
    guard.seen.filter (fun e => saturatingSub now guard.window ≤ e.2) =
      forget stampOf guard.window.toNat now.toNat guard.seen := by
  ext e
  rw [Finset.mem_filter, mem_forget, cutoff_le_iff, stampOf]

theorem checkAndRecord_fst {guard : ReplayGuard} {nonce : Bytes 8} {freshness now : UInt32} :
    (guard.checkAndRecord nonce freshness now).1 = true ↔
      (nonce, freshness) ∉ forget stampOf guard.window.toNat now.toNat guard.seen := by
  simp only [ReplayGuard.checkAndRecord, purge_eq_forget, decide_eq_true_eq]

theorem checkAndRecord_snd (guard : ReplayGuard) (nonce : Bytes 8) (freshness now : UInt32) :
    (guard.checkAndRecord nonce freshness now).2 =
      { guard with
        seen := record stampOf guard.window.toNat guard.seen now.toNat (nonce, freshness) } := by
  simp only [ReplayGuard.checkAndRecord, purge_eq_forget, record]

/-! ## The pre-filter -/

/-- `select_psk`: the first client whose PSK matches. -/
def selectPsk (H : KeyedHash) (psks : List Psk) (parts : DcidParts) : Option Nat :=
  psks.findIdx? fun psk => selectorMatches H psk parts

/-- `Endpoint::prefilter` at wall-clock minute `minute`, over the guards `replay`. -/
def prefilter (H : KeyedHash) (psks : List Psk) (replay : List ReplayGuard) (minute : UInt32)
    (data : List UInt8) : Option Nat × List ReplayGuard :=
  match peekDcid data with
  | none => (none, replay)
  | some dcid =>
    if dcid.length ≠ DCID_LEN then (none, replay)
    else
      match parseDcid dcid with
      | none => (none, replay)
      | some parts =>
        if isFresh parts.freshness minute WINDOW_MINUTES = false then (none, replay)
        else
          match selectPsk H psks parts with
          | none => (none, replay)
          | some idx =>
            match replay[idx]? with
            | none => (none, replay) -- the guards are index-aligned with the clients
            | some guard =>
              let (fresh, guard') := guard.checkAndRecord parts.nonce parts.freshness minute
              (if fresh then some idx else none, replay.set idx guard')

/-- The guards a server starts with. -/
def newGuards (psks : List Psk) : List ReplayGuard :=
  psks.map fun _ => ReplayGuard.new WINDOW_MINUTES

/-- What a datagram read at `minute` presents to a guard: the client and the entry. -/
def reaches (H : KeyedHash) (psks : List Psk) (minute : UInt32) (data : List UInt8) :
    Option (Nat × (Bytes 8 × UInt32)) :=
  match (peekDcid data).bind parseDcid with
  | none => none
  | some parts =>
    if isFresh parts.freshness minute WINDOW_MINUTES then
      (selectPsk H psks parts).map fun idx => (idx, (parts.nonce, parts.freshness))
    else none

variable {H : KeyedHash} {psks : List Psk} {replay : List ReplayGuard} {minute : UInt32}
  {data : List UInt8}

/-- What reached a guard: a DCID that parses, is fresh, and selects that client. -/
theorem reaches_inv {idx : Nat} {entry : Bytes 8 × UInt32}
    (h : reaches H psks minute data = some (idx, entry)) :
    ∃ dcid parts, peekDcid data = some dcid ∧ parseDcid dcid = some parts ∧
      isFresh parts.freshness minute WINDOW_MINUTES = true ∧
      selectPsk H psks parts = some idx ∧ entry = (parts.nonce, parts.freshness) := by
  unfold reaches at h
  cases hd : (peekDcid data).bind parseDcid with
  | none => simp [hd] at h
  | some parts =>
    obtain ⟨dcid, hpeek, hparse⟩ := Option.bind_eq_some_iff.mp hd
    simp only [hd] at h
    split at h
    · rename_i hfresh
      simp only [Option.map_eq_some_iff, Prod.mk.injEq] at h
      obtain ⟨j, hj, rfl, rfl⟩ := h
      exact ⟨dcid, parts, hpeek, hparse, hfresh, hj, rfl⟩
    · exact absurd h (by simp)

/-- **The pre-filter is one guard's decision**: of the guard that the datagram reaches, if any. -/
theorem prefilter_eq :
    prefilter H psks replay minute data =
      match reaches H psks minute data with
      | none => (none, replay)
      | some (idx, entry) =>
        match replay[idx]? with
        | none => (none, replay)
        | some guard => (if (guard.checkAndRecord entry.1 entry.2 minute).1 then some idx else none,
            replay.set idx (guard.checkAndRecord entry.1 entry.2 minute).2) := by
  unfold prefilter reaches
  cases hd : peekDcid data with
  | none => rfl
  | some dcid =>
    cases hp : parseDcid dcid with
    | none => simp [hp]
    | some parts =>
      have hlen : dcid.length = DCID_LEN := by
        rw [parseDcid_eq_some_iff.mp hp]
        simp [DcidParts.toBytes, DCID_LEN]
      simp only [Option.bind_some, hp, hlen, ne_eq, not_true_eq_false, if_false]
      cases isFresh parts.freshness minute WINDOW_MINUTES with
      | false => rfl
      | true => cases selectPsk H psks parts <;> rfl

/-- A datagram that reaches no guard is rejected and changes none. -/
theorem prefilter_of_not_reaches (h : reaches H psks minute data = none) :
    prefilter H psks replay minute data = (none, replay) := by
  rw [prefilter_eq, h]

/-- A datagram that reaches guard `idx` is decided by that guard alone. -/
theorem prefilter_of_reaches {idx : Nat} {entry : Bytes 8 × UInt32} {guard : ReplayGuard}
    (h : reaches H psks minute data = some (idx, entry)) (hguard : replay[idx]? = some guard) :
    prefilter H psks replay minute data =
      (if (guard.checkAndRecord entry.1 entry.2 minute).1 then some idx else none,
        replay.set idx (guard.checkAndRecord entry.1 entry.2 minute).2) := by
  simp only [prefilter_eq, h, hguard]

/-- Past the end of the guard list nothing is admitted or changed. -/
theorem prefilter_of_no_guard {idx : Nat} {entry : Bytes 8 × UInt32}
    (h : reaches H psks minute data = some (idx, entry)) (hguard : replay[idx]? = none) :
    prefilter H psks replay minute data = (none, replay) := by
  simp only [prefilter_eq, h, hguard]

/-- The pre-filter answers the index of a client. -/
theorem prefilter_lt {idx : Nat} (h : (prefilter H psks replay minute data).1 = some idx) :
    idx < psks.length := by
  rw [prefilter_eq] at h
  cases hreach : reaches H psks minute data with
  | none =>
    rw [hreach] at h
    exact absurd h (by simp)
  | some r =>
    obtain ⟨j, entry⟩ := r
    obtain ⟨_, _, -, -, -, hselect, -⟩ := reaches_inv hreach
    simp only [hreach] at h
    split at h
    · exact absurd h (by simp)
    · dsimp only at h
      split at h
      · obtain rfl := Option.some.inj h
        exact (List.findIdx?_eq_some_iff_getElem.mp hselect).1
      · exact absurd h (by simp)

/-- What it takes to reach guard `idx`: a 20-byte DCID that `buildDcid` writes under that
client's PSK and under no earlier client's, within the window. -/
theorem reaches_eq_some_iff {idx : Nat} {nonce : Bytes 8} {freshness : UInt32} :
    reaches H psks minute data = some (idx, (nonce, freshness)) ↔
      ∃ psk, psks[idx]? = some psk ∧
        Carries data (buildDcid H psk nonce freshness).toList ∧
        (freshness.toNat ≤ minute.toNat + WINDOW_MINUTES.toNat ∧
          minute.toNat ≤ freshness.toNat + WINDOW_MINUTES.toNat) ∧
        ∀ j psk', j < idx → psks[j]? = some psk' →
          (buildDcid H psk nonce freshness).toList ≠
            (buildDcid H psk' nonce freshness).toList := by
  constructor
  · intro h
    obtain ⟨dcid, parts, hpeek, hparse, hfresh, hj, hentry⟩ := reaches_inv h
    obtain ⟨rfl, rfl⟩ := Prod.mk.inj hentry
    obtain ⟨hlt, hmatch, hfirst⟩ := List.findIdx?_eq_some_iff_getElem.mp hj
    have hbuilt := (buildDcid_of_selectorMatches hparse).mp hmatch
    refine ⟨psks[idx], List.getElem?_eq_getElem hlt, ?_, isFresh_iff.mp hfresh, ?_⟩
    · rw [← hbuilt]
      exact (carries_of_peekDcid hpeek).1
    · intro k psk' hk hpsk' heq
      obtain ⟨hklt, rfl⟩ := List.getElem?_eq_some_iff.mp hpsk'
      exact hfirst k hk ((buildDcid_of_selectorMatches hparse).mpr (hbuilt.trans heq))
  · rintro ⟨psk, hpsk, hcar, hfresh, hfirst⟩
    obtain ⟨hlt, rfl⟩ := List.getElem?_eq_some_iff.mp hpsk
    have hpeek := peekDcid_of_carries hcar (by simp) (by simp)
    have hparse := parseDcid_buildDcid H psks[idx] nonce freshness
    have hsel : selectPsk H psks (builtParts H psks[idx] nonce freshness) = some idx := by
      refine List.findIdx?_eq_some_iff_getElem.mpr
        ⟨hlt, (buildDcid_of_selectorMatches hparse).mpr rfl, fun j hj hmatch => ?_⟩
      exact hfirst j _ hj (List.getElem?_eq_getElem (hj.trans hlt))
        ((buildDcid_of_selectorMatches hparse).mp hmatch)
    have hf : isFresh freshness minute WINDOW_MINUTES = true := isFresh_iff.mpr hfresh
    simp only [reaches, hpeek, Option.bind_some, hparse, hsel, Option.map_some]
    simp [builtParts, hf]

/-! ## Runs of the pre-filter -/

/-- One call: the wall-clock minute it reads and the datagram. -/
abbrev Presented := UInt32 × List UInt8

/-- The guards a run leaves. -/
def guardsAfter (H : KeyedHash) (psks : List Psk) (calls : List Presented) : List ReplayGuard :=
  calls.foldl (fun replay c => (prefilter H psks replay c.1 c.2).2) (newGuards psks)

/-- The pre-filter's answer to one more datagram after a run. -/
def answerAfter (H : KeyedHash) (psks : List Psk) (calls : List Presented) (c : Presented) :
    Option Nat :=
  (prefilter H psks (guardsAfter H psks calls) c.1 c.2).1

/-- The (client, entry) an answer admits: the entry is what the datagram's DCID carries. -/
def admittedEntry (answer : Option Nat) (data : List UInt8) : Option (Nat × (Bytes 8 × UInt32)) :=
  match answer, (peekDcid data).bind parseDcid with
  | some idx, some parts => some (idx, (parts.nonce, parts.freshness))
  | _, _ => none

/-- Every admission of a run that starts with the guards `replay`, in order. -/
def admissionsFrom (H : KeyedHash) (psks : List Psk) :
    List Presented → List ReplayGuard → List (Nat × (Bytes 8 × UInt32))
  | [], _ => []
  | (minute, data) :: calls, replay =>
    (admittedEntry (prefilter H psks replay minute data).1 data).toList ++
      admissionsFrom H psks calls (prefilter H psks replay minute data).2

/-- Every admission of a server's run. -/
def admissions (H : KeyedHash) (psks : List Psk) (calls : List Presented) :
    List (Nat × (Bytes 8 × UInt32)) :=
  admissionsFrom H psks calls (newGuards psks)

/-- What reaches client `idx`'s guard at a call: the reading and the entry. -/
def consultOf (H : KeyedHash) (psks : List Psk) (idx : Nat) (c : Presented) :
    Option (Nat × (Bytes 8 × UInt32)) :=
  match reaches H psks c.1 c.2 with
  | some (j, entry) => if j = idx then some (c.1.toNat, entry) else none
  | none => none

/-- The readings and entries client `idx`'s guard is consulted with over a run. -/
def consults (H : KeyedHash) (psks : List Psk) (idx : Nat) (calls : List Presented) :
    List (Nat × (Bytes 8 × UInt32)) :=
  calls.filterMap (consultOf H psks idx)

/-- The window as a natural number. -/
abbrev window : Nat := WINDOW_MINUTES.toNat

theorem reaches_lt {idx : Nat} {entry : Bytes 8 × UInt32}
    (h : reaches H psks minute data = some (idx, entry)) : idx < psks.length := by
  obtain ⟨psk, hpsk, -⟩ := reaches_eq_some_iff.mp h
  exact (List.getElem?_eq_some_iff.mp hpsk).1

theorem reaches_fresh {idx : Nat} {entry : Bytes 8 × UInt32}
    (h : reaches H psks minute data = some (idx, entry)) :
    minute.toNat ≤ stampOf entry + window := by
  obtain ⟨_, _, _, hfresh, _⟩ := reaches_eq_some_iff.mp h
  exact hfresh.2

/-- The entry that reaches a guard is the one the DCID carries. -/
theorem admittedEntry_of_reaches {idx : Nat} {entry : Bytes 8 × UInt32}
    (h : reaches H psks minute data = some (idx, entry)) :
    admittedEntry (some idx) data = some (idx, entry) := by
  obtain ⟨dcid, parts, hpeek, hparse, -, -, rfl⟩ := reaches_inv h
  unfold admittedEntry
  rw [hpeek, Option.bind_some, hparse]

theorem guardsAfter_snoc (calls : List Presented) (c : Presented) :
    guardsAfter H psks (calls ++ [c]) =
      (prefilter H psks (guardsAfter H psks calls) c.1 c.2).2 := by
  simp [guardsAfter]

theorem consults_snoc (idx : Nat) (calls : List Presented) (c : Presented) :
    consults H psks idx (calls ++ [c]) =
      consults H psks idx calls ++ (consultOf H psks idx c).toList := by
  rw [consults, List.filterMap_append, ← consults]
  cases h : consultOf H psks idx c <;> simp [h]

theorem consults_fresh {idx : Nat} {calls : List Presented} :
    ∀ e ∈ consults H psks idx calls, e.1 ≤ stampOf e.2 + window := by
  intro e he
  obtain ⟨c, -, hc⟩ := List.mem_filterMap.mp he
  unfold consultOf at hc
  split at hc
  · rename_i j entry hreach
    split at hc
    · obtain rfl := Option.some.inj hc
      exact reaches_fresh hreach
    · exact absurd hc (by simp)
  · exact absurd hc (by simp)

/-- **What the guards hold after a run**: each one records its own consultations, and nothing
else touches it. -/
theorem guardsAfter_getElem? (calls : List Presented) (idx : Nat) :
    (guardsAfter H psks calls)[idx]? =
      (psks[idx]?).map fun _ =>
        ⟨WINDOW_MINUTES, recordAll stampOf window (consults H psks idx calls) ∅⟩ := by
  induction calls using List.reverseRecOn generalizing idx with
  | nil =>
    rw [guardsAfter, List.foldl_nil, newGuards, List.getElem?_map]
    rfl
  | append_singleton calls c ih =>
    rw [guardsAfter_snoc, consults_snoc, consultOf]
    cases hreach : reaches H psks c.1 c.2 with
    | none => simp [prefilter_of_not_reaches hreach, ih]
    | some r =>
      obtain ⟨j, entry⟩ := r
      have hguard := ih j
      rw [List.getElem?_eq_getElem (reaches_lt hreach), Option.map_some] at hguard
      have hlen := (List.getElem?_eq_some_iff.mp hguard).1
      rw [prefilter_of_reaches hreach hguard, checkAndRecord_snd]
      by_cases hidx : j = idx
      · subst hidx
        simp [List.getElem?_set_self hlen, List.getElem?_eq_getElem (reaches_lt hreach),
          recordAll_snoc]
      · simp [List.getElem?_set_ne hidx, ih idx, hidx]

/-- **The answer after a run**: the guard the datagram reaches must not hold its entry. -/
theorem answerAfter_eq_some_iff {calls : List Presented} {c : Presented} {idx : Nat} :
    answerAfter H psks calls c = some idx ↔
      ∃ entry, reaches H psks c.1 c.2 = some (idx, entry) ∧
        ¬ Held stampOf window (consults H psks idx calls) entry := by
  unfold answerAfter
  cases hreach : reaches H psks c.1 c.2 with
  | none => simp [prefilter_of_not_reaches hreach]
  | some r =>
    obtain ⟨j, entry⟩ := r
    have hguard : (guardsAfter H psks calls)[j]? = _ := guardsAfter_getElem? calls j
    rw [List.getElem?_eq_getElem (reaches_lt hreach), Option.map_some] at hguard
    have hfirst : (ReplayGuard.checkAndRecord
          ⟨WINDOW_MINUTES, recordAll stampOf window (consults H psks j calls) ∅⟩
          entry.1 entry.2 c.1).1 = true ↔
        ¬ Held stampOf window (consults H psks j calls) entry := by
      rw [checkAndRecord_fst, mem_forget, mem_recordAll_iff]
      simp [reaches_fresh hreach]
    rw [prefilter_of_reaches hreach hguard]
    constructor
    · intro h
      split at h
      · rename_i hok
        obtain rfl := Option.some.inj h
        exact ⟨entry, rfl, hfirst.mp hok⟩
      · exact absurd h (by simp)
    · rintro ⟨entry', he, hnot⟩
      simp only [Option.some.injEq, Prod.mk.injEq] at he
      obtain ⟨rfl, rfl⟩ := he
      rw [if_pos (hfirst.mpr hnot)]

theorem admissionsFrom_snoc (calls : List Presented) (c : Presented) (replay : List ReplayGuard) :
    admissionsFrom H psks (calls ++ [c]) replay =
      admissionsFrom H psks calls replay ++
        (admittedEntry (prefilter H psks
          (calls.foldl (fun replay c => (prefilter H psks replay c.1 c.2).2) replay) c.1 c.2).1
          c.2).toList := by
  induction calls generalizing replay with
  | nil => simp [admissionsFrom]
  | cons c' calls ih => simp [admissionsFrom, ih]

theorem admissions_snoc (calls : List Presented) (c : Presented) :
    admissions H psks (calls ++ [c]) =
      admissions H psks calls ++ (admittedEntry (answerAfter H psks calls c) c.2).toList :=
  admissionsFrom_snoc calls c (newGuards psks)

/-- The entries admitted for client `idx`, in order. -/
def admissionsOf (idx : Nat) (adm : List (Nat × (Bytes 8 × UInt32))) : List (Bytes 8 × UInt32) :=
  adm.filterMap fun a => if a.1 = idx then some a.2 else none

/-- **Client by client, what a run admits is what its guard accepts** (`Lib.accepted`). -/
theorem admissionsOf_eq_accepted (idx : Nat) (calls : List Presented) :
    admissionsOf idx (admissions H psks calls) =
      accepted stampOf window (consults H psks idx calls) ∅ := by
  induction calls using List.reverseRecOn with
  | nil => rfl
  | append_singleton calls c ih =>
    rw [admissions_snoc, consults_snoc, admissionsOf, List.filterMap_append, ← admissionsOf, ih,
      consultOf]
    cases hreach : reaches H psks c.1 c.2 with
    | none =>
      have hnone : answerAfter H psks calls c = none := by
        simp [answerAfter, prefilter_of_not_reaches hreach]
      simp [hnone, admittedEntry]
    | some r =>
      obtain ⟨j, entry⟩ := r
      by_cases hheld : Held stampOf window (consults H psks j calls) entry
      · have hnone : answerAfter H psks calls c = none := by
          rw [Option.eq_none_iff_forall_ne_some]
          intro i hi
          obtain ⟨entry', he, hnot⟩ := answerAfter_eq_some_iff.mp hi
          simp only [hreach, Option.some.injEq, Prod.mk.injEq] at he
          obtain ⟨rfl, rfl⟩ := he
          exact hnot hheld
        by_cases hj : j = idx
        · subst hj
          simp only [if_true, Option.toList_some]
          rw [accepted_snoc (reaches_fresh hreach), if_pos ((mem_recordAll_iff _ _).mpr hheld)]
          simp [hnone, admittedEntry]
        · simp [hnone, admittedEntry, hj]
      · have hsome : answerAfter H psks calls c = some j :=
          answerAfter_eq_some_iff.mpr ⟨entry, hreach, hheld⟩
        rw [hsome, admittedEntry_of_reaches hreach]
        by_cases hj : j = idx
        · subst hj
          simp only [if_true, Option.toList_some]
          rw [accepted_snoc (reaches_fresh hreach), if_neg ((mem_recordAll_iff _ _).not.mpr hheld)]
          simp
        · simp [hj]

theorem mem_admissionsOf {idx : Nat} {adm : List (Nat × (Bytes 8 × UInt32))}
    {entry : Bytes 8 × UInt32} : entry ∈ admissionsOf idx adm ↔ (idx, entry) ∈ adm := by
  simp only [admissionsOf, List.mem_filterMap]
  constructor
  · rintro ⟨⟨j, e⟩, hmem, h⟩
    split at h
    · rename_i hj
      simp only at hj
      simp only [Option.some.injEq] at h
      rw [← hj, ← h]
      exact hmem
    · exact absurd h (by simp)
  · exact fun h => ⟨(idx, entry), h, by simp⟩

/-- A list of tagged entries has no repetition iff no tag's entries do. -/
theorem nodup_iff_admissionsOf {adm : List (Nat × (Bytes 8 × UInt32))} :
    adm.Nodup ↔ ∀ idx, (admissionsOf idx adm).Nodup := by
  induction adm with
  | nil => simp [admissionsOf]
  | cons a adm ih =>
    have hcons : ∀ idx, admissionsOf idx (a :: adm) =
        if a.1 = idx then a.2 :: admissionsOf idx adm else admissionsOf idx adm := by
      intro idx
      simp only [admissionsOf, List.filterMap_cons]
      split <;> simp_all
    rw [List.nodup_cons, ih]
    constructor
    · rintro ⟨hnot, hnd⟩ idx
      rw [hcons]
      split
      · rename_i hidx
        refine List.nodup_cons.mpr ⟨fun hmem => hnot ?_, hnd idx⟩
        have := mem_admissionsOf.mp hmem
        rwa [← hidx] at this
      · exact hnd idx
    · intro h
      have ha := h a.1
      rw [hcons, if_pos rfl, List.nodup_cons] at ha
      refine ⟨fun hmem => ha.1 (mem_admissionsOf.mpr hmem), fun idx => ?_⟩
      have := h idx
      rw [hcons] at this
      split at this
      · exact (List.nodup_cons.mp this).2
      · exact this

/-! ## Replay safety for readings in any order -/

/-- **When no (client, nonce, freshness) is admitted twice**: exactly when, between two datagrams
that reach a client's guard with one entry, that guard is never consulted at a reading more than
`WINDOW_MINUTES` past the entry's freshness. -/
theorem admissions_nodup_iff (H : KeyedHash) (psks : List Psk) (calls : List Presented) :
    (admissions H psks calls).Nodup ↔
      ∀ idx, NoPassedRepeat stampOf window (consults H psks idx calls) := by
  rw [nodup_iff_admissionsOf]
  refine forall_congr' fun idx => ?_
  rw [admissionsOf_eq_accepted, accepted_nodup_iff consults_fresh]

/-- A long-header datagram with the DCID `dcid` and nothing after it. -/
def initialWith (dcid : Bytes 20) : List UInt8 :=
  0xc0 :: ([0, 0, 0, 1] ++ UInt8.ofNat 20 :: (dcid.toList ++ []))

/-- A keyed hash to evaluate the model with: the all-zero digest. -/
def zeroHash : KeyedHash := fun _ _ => List.Vector.replicate 32 0

/-- A captured Initial, traffic ten minutes later, the clock set back, and the same Initial. -/
def purgeThenStepBack : List Presented :=
  let psk : Psk := List.Vector.replicate 32 7
  let captured := initialWith (buildDcid zeroHash psk (List.Vector.replicate 8 1) 100)
  let traffic := initialWith (buildDcid zeroHash psk (List.Vector.replicate 8 2) 110)
  [(100, captured), (110, traffic), (100, captured)]

/-- **The purge is not undone when the clock steps back**: the captured Initial is admitted a
second time. -/
theorem purge_then_step_back :
    ¬ (admissions zeroHash [List.Vector.replicate 32 7] purgeThenStepBack).Nodup := by
  decide

/-! ## Exact admission for non-decreasing readings -/

theorem consults_le {idx : Nat} {pre post : List Presented} {c : Presented}
    (hmono : ((pre ++ c :: post).map Prod.fst).Pairwise (· ≤ ·)) :
    ∀ e ∈ consults H psks idx pre, e.1 ≤ c.1.toNat := by
  intro e he
  obtain ⟨c', hc', hconsult⟩ := List.mem_filterMap.mp he
  rw [List.map_append, List.pairwise_append] at hmono
  have hle := hmono.2.2 c'.1 (List.mem_map_of_mem hc') c.1 (by simp)
  unfold consultOf at hconsult
  split at hconsult
  · split at hconsult
    · obtain rfl := Option.some.inj hconsult
      exact UInt32.le_iff_toNat_le.mp hle
    · exact absurd hconsult (by simp)
  · exact absurd hconsult (by simp)

/-- An entry was admitted iff it reached the guard at all: its first consultation is accepted. -/
theorem mem_admissions_iff {calls : List Presented} {idx : Nat} {entry : Bytes 8 × UInt32} :
    (idx, entry) ∈ admissions H psks calls ↔ ∃ m, (m, entry) ∈ consults H psks idx calls := by
  rw [← mem_admissionsOf, admissionsOf_eq_accepted, mem_accepted_iff consults_fresh]

/-- **The purging guard refines an unbounded history**: with non-decreasing readings, an entry
that is fresh now is held iff it was admitted before. -/
theorem held_iff_mem_admissions {pre post : List Presented} {c : Presented} {idx : Nat}
    {entry : Bytes 8 × UInt32}
    (hmono : ((pre ++ c :: post).map Prod.fst).Pairwise (· ≤ ·))
    (hreach : reaches H psks c.1 c.2 = some (idx, entry)) :
    Held stampOf window (consults H psks idx pre) entry ↔
      (idx, entry) ∈ admissions H psks pre := by
  rw [mem_admissions_iff]
  constructor
  · rintro ⟨l, m, l', hs, -⟩
    exact ⟨m, by simp [hs]⟩
  · rintro ⟨m, hm⟩
    obtain ⟨l, l', hs⟩ := List.append_of_mem hm
    refine ⟨l, m, l', hs, fun e he => ?_⟩
    have hconsult : e ∈ consults H psks idx pre := by simp [hs, he]
    have hle := consults_le hmono e hconsult
    exact hle.trans (reaches_fresh hreach)

/-- One DCID presents one entry to one client, whatever minute it is read at. -/
theorem reaches_congr {m m' : UInt32} {d d' : List UInt8} {r r' : Nat × (Bytes 8 × UInt32)}
    (hpeek : peekDcid d = peekDcid d') (h : reaches H psks m d = some r)
    (h' : reaches H psks m' d' = some r') : r = r' := by
  obtain ⟨idx, entry⟩ := r
  obtain ⟨idx', entry'⟩ := r'
  obtain ⟨dcid, parts, hd, hparse, -, hselect, rfl⟩ := reaches_inv h
  obtain ⟨dcid', parts', hd', hparse', -, hselect', rfl⟩ := reaches_inv h'
  obtain rfl : dcid = dcid' := Option.some.inj (hd.symm.trans (hpeek.trans hd'))
  obtain rfl : parts = parts' := Option.some.inj (hparse.symm.trans hparse')
  rw [Option.some.inj (hselect.symm.trans hselect')]

/-- **Exact admission.** With non-decreasing minute readings, a datagram is admitted for client
`idx` iff its DCID is 20 bytes that `buildDcid` writes under that client's PSK for some nonce and
freshness within `WINDOW_MINUTES` of the reading, and under no earlier client's PSK for that pair,
and no earlier call admitted the pair for that client. And no DCID is admitted twice in a run. -/
theorem prefilter_admits_iff (H : KeyedHash) (psks : List Psk) (calls : List Presented)
    (hmono : (calls.map Prod.fst).Pairwise (· ≤ ·)) :
    (∀ pre c post, calls = pre ++ c :: post → ∀ idx,
      (answerAfter H psks pre c = some idx ↔
        ∃ nonce freshness psk, psks[idx]? = some psk ∧
          Carries c.2 (buildDcid H psk nonce freshness).toList ∧
          (freshness.toNat ≤ c.1.toNat + WINDOW_MINUTES.toNat ∧
            c.1.toNat ≤ freshness.toNat + WINDOW_MINUTES.toNat) ∧
          (∀ j psk', j < idx → psks[j]? = some psk' →
            (buildDcid H psk nonce freshness).toList ≠
              (buildDcid H psk' nonce freshness).toList) ∧
          (idx, (nonce, freshness)) ∉ admissions H psks pre)) ∧
    ∀ pre c mid c' post, calls = pre ++ c :: mid ++ c' :: post →
      (answerAfter H psks pre c).isSome → (answerAfter H psks (pre ++ c :: mid) c').isSome →
      peekDcid c.2 ≠ peekDcid c'.2 := by
  constructor
  · rintro pre c post rfl idx
    rw [answerAfter_eq_some_iff]
    constructor
    · rintro ⟨⟨nonce, freshness⟩, hreach, hnot⟩
      obtain ⟨psk, hpsk, hcar, hfresh, hfirst⟩ := reaches_eq_some_iff.mp hreach
      rw [held_iff_mem_admissions hmono hreach] at hnot
      exact ⟨nonce, freshness, psk, hpsk, hcar, hfresh, hfirst, hnot⟩
    · rintro ⟨nonce, freshness, psk, hpsk, hcar, hfresh, hfirst, hnot⟩
      have hreach : reaches H psks c.1 c.2 = some (idx, (nonce, freshness)) :=
        reaches_eq_some_iff.mpr ⟨psk, hpsk, hcar, hfresh, hfirst⟩
      rw [← held_iff_mem_admissions hmono hreach] at hnot
      exact ⟨(nonce, freshness), hreach, hnot⟩
  · rintro pre c mid c' post rfl hadm hadm' hpeek
    obtain ⟨idx, hidx⟩ := Option.isSome_iff_exists.mp hadm
    obtain ⟨idx', hidx'⟩ := Option.isSome_iff_exists.mp hadm'
    obtain ⟨entry, hreach, -⟩ := answerAfter_eq_some_iff.mp hidx
    obtain ⟨entry', hreach', hnot⟩ := answerAfter_eq_some_iff.mp hidx'
    obtain ⟨rfl, rfl⟩ := Prod.mk.inj (reaches_congr hpeek hreach hreach')
    apply hnot
    rw [held_iff_mem_admissions hmono hreach', mem_admissions_iff]
    refine ⟨c.1.toNat, List.mem_filterMap.mpr ⟨c, by simp, ?_⟩⟩
    simp [consultOf, hreach]

/-- The run of `purgeThenStepBack` without its last call: two admissions, of two DCIDs. -/
theorem prefilter_admits_two :
    ((purgeThenStepBack.take 2).map Prod.fst).Pairwise (· ≤ ·) ∧
      admissions zeroHash [List.Vector.replicate 32 7] (purgeThenStepBack.take 2) =
        [(0, (List.Vector.replicate 8 1, 100)), (0, (List.Vector.replicate 8 2, 110))] ∧
      ∀ pre c mid c' post, purgeThenStepBack.take 2 = pre ++ c :: mid ++ c' :: post →
        (answerAfter zeroHash [List.Vector.replicate 32 7] pre c).isSome →
        (answerAfter zeroHash [List.Vector.replicate 32 7] (pre ++ c :: mid) c').isSome →
        peekDcid c.2 ≠ peekDcid c'.2 := by
  have hmono : ((purgeThenStepBack.take 2).map Prod.fst).Pairwise (· ≤ ·) := by decide
  exact ⟨hmono, by decide, (prefilter_admits_iff zeroHash _ _ hmono).2⟩

end QuietQuic.Proto
